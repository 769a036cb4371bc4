import Etherboot.Net.AwaitReply

set_option autoImplicit false

/-! # Building IP, UDP and TCP headers (`build_ip_hdr`, `build_udp_hdr`, `build_tcp_hdr`)

The sending side of `core/nic.c`. The builders fill in the headers in front of a payload that is
already in place, with the checksum fields zero, sum, and store the sums. `built_packets_accepted`
says that what they build passes every check of `await_reply`. -/

namespace Net

open Prog Memory OnesComplement Store

variable (client destip ttl : Nat)

/-- `build_ip_hdr`; `client` is the address in `arptable[ARP_CLIENT]`. Addresses are kept in
    network order, so a store writes their little-endian bytes. -/
def buildIpHdr (protocol : UInt8) (optionLen len buf : Nat) :
    Prog Unit := do
  writeBytes buf [UInt8.ofNat (0x45 + optionLen / 4)]
  writeBytes (buf + 1) [0]
  writeBytes (buf + 2) (be16Bytes len)
  writeBytes (buf + 4) (be16Bytes 0)
  writeBytes (buf + 6) (be16Bytes 0)
  writeBytes (buf + 8) [UInt8.ofNat ttl]
  writeBytes (buf + 9) [protocol]
  writeBytes (buf + 10) (le16Bytes 0)
  writeBytes (buf + 12) (le32Bytes client)
  writeBytes (buf + 16) (le32Bytes destip)
  let chksum ← ipchksumAt buf (sizeofIphdr + optionLen)
  writeBytes (buf + 10) (le16Bytes chksum)

/-- The end of both transport builders: `if ((x->chksum = tcpudpchksum(ip)) == 0) x->chksum = 0xffff`,
    the field standing at `p`. -/
def fillChksum (ip p : Nat) : Prog Unit := do
  let chksum ← tcpudpchksum ip
  writeBytes p (le16Bytes chksum)
  if chksum = 0 then writeBytes p (le16Bytes 0xffff) else pure ()

def buildUdpHdr (client destip srcsock destsock ttl len buf : Nat) : Prog Unit := do
  buildIpHdr client destip ttl ipUdp 0 len buf
  writeBytes (buf + 20) (be16Bytes srcsock)
  writeBytes (buf + 22) (be16Bytes destsock)
  writeBytes (buf + 24) (be16Bytes (wsub len sizeofIphdr))
  writeBytes (buf + 26) (le16Bytes 0)
  fillChksum buf (buf + 26)

/-- `build_tcp_hdr`. The urgent pointer is not written. -/
def buildTcpHdr (client destip srcsock destsock sendSeq recvSeq window flags ttl len buf : Nat) :
    Prog Unit := do
  buildIpHdr client destip ttl ipTcp 0 len buf
  writeBytes (buf + 20) (be16Bytes srcsock)
  writeBytes (buf + 22) (be16Bytes destsock)
  writeBytes (buf + 24) (be32Bytes sendSeq)
  writeBytes (buf + 28) (be32Bytes recvSeq)
  writeBytes (buf + 32) (be16Bytes (flags + (5 <<< 12)))
  writeBytes (buf + 34) (be16Bytes window)
  writeBytes (buf + 36) (le16Bytes 0)
  fillChksum buf (buf + 36)

/-! ## A word put into a zeroed field -/

variable {c p m len buf : Nat} {s : Store} {protocol : UInt8}

theorem byteSum_le16Bytes (h : c < 65536) : byteSum false (le16Bytes c) = c := by
  simp only [le16Bytes, byteSum, UInt8.toNat_ofNat', Bool.not_false, Bool.false_eq_true, if_true, if_false]
  omega

/-- Storing `c` in a zeroed field at an even distance adds `c` to the sum. -/
theorem byteSum_splice_word {k : Nat} (hm : m % 2 = 0)
    (hzero : s.slice (p + m) 2 = le16Bytes 0) (hc : c < 65536) :
    byteSum false ((s.splice (p + m) (le16Bytes c)).slice p (m + 2 + k))
      = byteSum false (s.slice p (m + 2 + k)) + c := by
  have hbefore : (s.splice (p + m) (le16Bytes c)).slice p m = s.slice p m :=
    s.slice_splice_of_disjoint (Or.inl (Nat.le_refl _))
  have hword : (s.splice (p + m) (le16Bytes c)).slice (p + m) 2 = le16Bytes c :=
    s.slice_splice_self (p + m) (le16Bytes c)
  have hbehind : (s.splice (p + m) (le16Bytes c)).slice (p + (m + 2)) k = s.slice (p + (m + 2)) k :=
    s.slice_splice_of_disjoint (Or.inr (by rw [← Nat.add_assoc]; exact Nat.le_refl _))
  have hpar : parity false m = false := by simp [parity, hm]
  rw [slice_append, slice_append, slice_append s p (m + 2) k,
    slice_append s p m 2, hbefore, hword, hbehind, hzero]
  simp only [byteSum_append, length_slice, hpar, byteSum_le16Bytes hc,
    byteSum_le16Bytes (show 0 < 65536 by decide), List.length_append]
  rw [length_le16Bytes, length_le16Bytes]
  omega

/-! ## The IP header -/

/-- The fields of the IP header before its checksum is stored. -/
def ipFields (protocol : UInt8) (optionLen len : Nat) : List UInt8 :=
  [UInt8.ofNat (0x45 + optionLen / 4)] ++ [0] ++ be16Bytes len ++ be16Bytes 0 ++ be16Bytes 0 ++
    [UInt8.ofNat ttl] ++ [protocol] ++ le16Bytes 0 ++ le32Bytes client ++ le32Bytes destip

theorem run_buildIpHdr (protocol : UInt8) (optionLen len buf : Nat)
    (b s : Store) (hs : s = b.splice buf (ipFields client destip ttl protocol optionLen len)) :
    (buildIpHdr client destip ttl protocol optionLen len buf).run b
      = ((), s.splice (buf + 10) (le16Bytes (ipchksum (s.slice buf (20 + optionLen))))) := by
  -- the fields are written in order, so the writes are one run of bytes
  have hfields : s = (((((((((b.splice buf [UInt8.ofNat (0x45 + optionLen / 4)]).splice (buf + 1)
      [0]).splice (buf + 2) (be16Bytes len)).splice (buf + 4) (be16Bytes 0)).splice (buf + 6)
      (be16Bytes 0)).splice (buf + 8) [UInt8.ofNat ttl]).splice (buf + 9) [protocol]).splice
      (buf + 10) (le16Bytes 0)).splice (buf + 12) (le32Bytes client)).splice (buf + 16)
      (le32Bytes destip) := by
    rw [hs, ipFields]
    simp only [← splice_append]
    rfl
  simp only [buildIpHdr, run_bind, run_writeBytes, run_ipchksumAt, ← hfields]

/-- An IP header without options, complete with its checksum. -/
structure IpBuilt (protocol : UInt8) (len buf : Nat) (s : Store) : Prop where
  verhdrlen : s buf = 0x45
  total : be16 s (buf + 2) = len
  frags : be16 s (buf + 6) = 0
  protocol : s (buf + 9) = protocol
  chksum : ipchksum (s.slice buf 20) = 0

theorem be16_be16Bytes {v : Nat} (h0 : s p = UInt8.ofNat (v / 256))
    (h1 : s (p + 1) = UInt8.ofNat v) (hv : v < 65536) : be16 s p = v := by
  rw [be16, h0, h1, UInt8.toNat_ofNat', UInt8.toNat_ofNat']
  omega

theorem be16_le16Bytes_ne_zero (h0 : s p = UInt8.ofNat c)
    (h1 : s (p + 1) = UInt8.ofNat (c / 256)) (hpos : 0 < c) (hc : c < 65536) : be16 s p ≠ 0 := by
  rw [be16, h0, h1, UInt8.toNat_ofNat', UInt8.toNat_ofNat']
  omega

/-- Storing the complement of a sum makes the sum verify. -/
theorem ipchksum_splice_word {k : Nat} (hm : m % 2 = 0) (hzero : s.slice (p + m) 2 = le16Bytes 0) :
    ipchksum ((s.splice (p + m) (le16Bytes (ipchksum (s.slice p (m + 2 + k))))).slice p (m + 2 + k))
      = 0 := by
  have hc : ipchksum (s.slice p (m + 2 + k)) < 65536 := by
    rw [ipchksum_eq]
    omega
  rw [ipchksum_eq, byteSum_splice_word hm hzero hc, ipchksum_eq, canon_add_compl]

theorem buildIpHdr_built (protocol : UInt8) (buf : Nat)
    (b : Store) (hlen : len < 65536) :
    IpBuilt protocol len buf ((buildIpHdr client destip ttl protocol 0 len buf).run b).2 := by
  rw [run_buildIpHdr client destip ttl protocol 0 len buf b _ rfl]
  generalize hfields : ipFields client destip ttl protocol 0 len = fields
  have hlength : fields.length = 20 := by rw [← hfields]; rfl
  -- outside the checksum the header holds the fields that were written
  have hfield : ∀ (c k : Nat) (hk : k < fields.length), (k < 10 ∨ 12 ≤ k) →
      ((b.splice buf fields).splice (buf + 10) (le16Bytes c)) (buf + k) = fields.get ⟨k, hk⟩ := by
    intro c k hk hout
    rw [← b.splice_add buf fields hk]
    rcases hout with hout | hout
    · exact splice_of_lt _ _ (by omega)
    · exact splice_of_ge _ _ (by show buf + 10 + 2 ≤ buf + k; omega)
  have hzero : (b.splice buf fields).slice (buf + 10) 2 = le16Bytes 0 := by
    have h10 := b.splice_add buf fields (show 10 < fields.length by omega)
    have h11 := b.splice_add buf fields (show 11 < fields.length by omega)
    show [b.splice buf fields (buf + 10), b.splice buf fields (buf + 11)] = _
    rw [h10, h11]
    subst hfields
    rfl
  refine ⟨?_, ?_, ?_, ?_, ?_⟩
  · exact (hfield _ 0 (by omega) (by omega)).trans (by subst hfields; rfl)
  · exact be16_be16Bytes ((hfield _ 2 (by omega) (by omega)).trans (by subst hfields; rfl))
      ((hfield _ 3 (by omega) (by omega)).trans (by subst hfields; rfl)) hlen
  · exact be16_be16Bytes ((hfield _ 6 (by omega) (by omega)).trans (by subst hfields; rfl))
      ((hfield _ 7 (by omega) (by omega)).trans (by subst hfields; rfl)) (by decide)
  · exact (hfield _ 9 (by omega) (by omega)).trans (by subst hfields; rfl)
  · exact ipchksum_splice_word (m := 10) (k := 8) (by decide) hzero

theorem IpBuilt.splice {q : Nat} (h : IpBuilt protocol len buf s) (hq : buf + 20 ≤ q) (bs : List UInt8) :
    IpBuilt protocol len buf (s.splice q bs) := by
  have hkeep : ∀ i < buf + 20, s.splice q bs i = s i := fun i hi =>
    splice_of_lt _ _ (by omega)
  refine ⟨?_, ?_, ?_, ?_, ?_⟩
  · rw [hkeep _ (by omega)]
    exact h.verhdrlen
  · rw [be16_congr (fun k hk => hkeep _ (by omega))]
    exact h.total
  · rw [be16_congr (fun k hk => hkeep _ (by omega))]
    exact h.frags
  · rw [hkeep _ (by omega)]
    exact h.protocol
  · rw [slice_splice_of_disjoint s (Or.inl hq)]
    exact h.chksum

/-! ## The transport checksum -/

/-- Storing a word in a zeroed field of the transport part adds it to the sum. -/
theorem transportSum_splice_word {ip : Nat} (hm : m % 2 = 0)
    (hzero : s.slice (ip + 20 + m) 2 = le16Bytes 0) (hlen : m + 2 ≤ transportLen s ip)
    (hc : c < 65536) :
    transportSum (s.splice (ip + 20 + m) (le16Bytes c)) ip = transportSum s ip + c := by
  have hkeep : ∀ i < ip + 20, s.splice (ip + 20 + m) (le16Bytes c) i = s i := fun i hi =>
    splice_of_lt _ _ (by omega)
  have htl : transportLen (s.splice (ip + 20 + m) (le16Bytes c)) ip = transportLen s ip := by
    unfold transportLen
    rw [be16_congr (fun k hk => hkeep _ (by omega))]
  have hpseudo : pseudoAt (s.splice (ip + 20 + m) (le16Bytes c)) ip = pseudoAt s ip := by
    unfold pseudoAt
    rw [htl, slice_splice_of_disjoint s (Or.inl (by omega)),
      slice_splice_of_disjoint s (Or.inl (by omega)), hkeep _ (by omega)]
  obtain ⟨k, hk⟩ : ∃ k, transportLen s ip = m + 2 + k := ⟨_, (Nat.add_sub_of_le hlen).symm⟩
  unfold transportSum
  rw [hpseudo, htl, hk, byteSum_splice_word hm hzero hc]
  exact (Nat.add_assoc _ _ _).symm

/-- The stored word is never zero, and completes the sum to a multiple of `0xffff`. -/
theorem run_fillChksum (ip p : Nat) (s : Store) :
    ∃ c, 0 < c ∧ c < 65536 ∧ ((fillChksum ip p).run s).2 = s.splice p (le16Bytes c) ∧
      (transportSum s ip + c) % 65535 = 0 := by
  have hle := canon_le (transportSum s ip)
  have hmod := canon_mod (transportSum s ip)
  unfold fillChksum
  rw [run_bind_of (run_tcpudpchksum ip s), run_bind_of (run_writeBytes _ _ _)]
  by_cases hz : 65535 - canon (transportSum s ip) = 0
  · refine ⟨65535, by decide, by decide, ?_, by omega⟩
    rw [if_pos hz, run_writeBytes]
    exact s.splice_splice_self p (by simp only [length_le16Bytes])
  · refine ⟨65535 - canon (transportSum s ip), by omega, by omega, ?_, by omega⟩
    rw [if_neg hz]
    rfl

/-- A packet whose transport checksum, at distance `m` in the transport header, is filled in. -/
structure TransportBuilt (protocol : UInt8) (len buf m : Nat) (s : Store) : Prop where
  ip : IpBuilt protocol len buf s
  field : be16 s (buf + 20 + m) ≠ 0
  sum : 0 < transportSum s buf ∧ transportSum s buf % 65535 = 0

theorem IpBuilt.transportLen_eq
    (h : IpBuilt protocol len buf s) (hlen : 20 ≤ len) : transportLen s buf = len - 20 := by
  have htotal := h.total
  rw [Net.transportLen_eq (by omega), htotal]

/-- The end of a builder makes the packet complete and changes its checksum field only. -/
theorem fillChksum_built (h : IpBuilt protocol len buf s) (hm : m % 2 = 0)
    (hzero : s.slice (buf + 20 + m) 2 = le16Bytes 0) (hlen : 20 + (m + 2) ≤ len) :
    TransportBuilt protocol len buf m ((fillChksum buf (buf + 20 + m)).run s).2 ∧
      ∀ i, i < buf + 20 + m ∨ buf + 20 + m + 2 ≤ i → ((fillChksum buf (buf + 20 + m)).run s).2 i = s i := by
  obtain ⟨c, hpos, hc, hrun, hmod⟩ := run_fillChksum buf (buf + 20 + m) s
  have hsum := transportSum_splice_word hm hzero
    (show m + 2 ≤ transportLen s buf by rw [h.transportLen_eq (by omega)]; omega) hc
  rw [hrun]
  refine ⟨⟨h.splice (by omega) _, ?_, ?_⟩, ?_⟩
  · have h0 : s.splice (buf + 20 + m) (le16Bytes c) (buf + 20 + m) = UInt8.ofNat c :=
      s.splice_add (buf + 20 + m) (le16Bytes c) (show 0 < 2 by decide)
    have h1 : s.splice (buf + 20 + m) (le16Bytes c) (buf + 20 + m + 1) = UInt8.ofNat (c / 256) :=
      s.splice_add (buf + 20 + m) (le16Bytes c) (show 1 < 2 by decide)
    exact be16_le16Bytes_ne_zero h0 h1 hpos hc
  · rw [hsum]
    exact ⟨by omega, hmod⟩
  · intro i hi
    rcases hi with hi | hi
    · exact splice_of_lt _ _ hi
    · exact splice_of_ge _ _ hi

/-! ## The builders -/

/-- The fields of the UDP header before its checksum is stored. -/
def udpFields (srcsock destsock len : Nat) : List UInt8 :=
  be16Bytes srcsock ++ be16Bytes destsock ++ be16Bytes (wsub len sizeofIphdr) ++ le16Bytes 0

/-- The fields of the TCP header, without the urgent pointer, before its checksum is stored. -/
def tcpFields (srcsock destsock sendSeq recvSeq window flags : Nat) : List UInt8 :=
  be16Bytes srcsock ++ be16Bytes destsock ++ be32Bytes sendSeq ++ be32Bytes recvSeq ++
    be16Bytes (flags + (5 <<< 12)) ++ be16Bytes window ++ le16Bytes 0

theorem run_buildUdpHdr (client destip srcsock destsock ttl len buf : Nat) (b : Store) :
    (buildUdpHdr client destip srcsock destsock ttl len buf).run b
      = (fillChksum buf (buf + 20 + 6)).run
          (((buildIpHdr client destip ttl ipUdp 0 len buf).run b).2.splice (buf + 20)
            (udpFields srcsock destsock len)) := by
  simp only [buildUdpHdr, run_bind, run_writeBytes, udpFields, ← splice_append]
  rfl

theorem run_buildTcpHdr
    (client destip srcsock destsock sendSeq recvSeq window flags ttl len buf : Nat) (b : Store) :
    (buildTcpHdr client destip srcsock destsock sendSeq recvSeq window flags ttl len buf).run b
      = (fillChksum buf (buf + 20 + 16)).run
          (((buildIpHdr client destip ttl ipTcp 0 len buf).run b).2.splice (buf + 20)
            (tcpFields srcsock destsock sendSeq recvSeq window flags)) := by
  simp only [buildTcpHdr, run_bind, run_writeBytes, tcpFields, ← splice_append]
  rfl

/-- Both builders put the fields of their header behind the IP header, with zero in the checksum at
    distance `m`, and fill that in. -/
theorem transportHdr_built (h : IpBuilt protocol len buf s) (fields : List UInt8) (hm : m % 2 = 0)
    (hfit : m + 2 ≤ fields.length) (hlen : 20 + fields.length ≤ len)
    (hzero : fields.get ⟨m, by omega⟩ = 0 ∧ fields.get ⟨m + 1, by omega⟩ = 0) :
    ∃ t, ((fillChksum buf (buf + 20 + m)).run (s.splice (buf + 20) fields)).2 = t ∧
      TransportBuilt protocol len buf m t ∧
      ∀ (k : Nat) (hk : k < fields.length), k < m ∨ m + 2 ≤ k → t (buf + 20 + k) = fields.get ⟨k, hk⟩ := by
  have hfield : (s.splice (buf + 20) fields).slice (buf + 20 + m) 2 = le16Bytes 0 := by
    have h0 := s.splice_add (buf + 20) fields (show m < fields.length by omega)
    have h1 := s.splice_add (buf + 20) fields (show m + 1 < fields.length by omega)
    show [s.splice (buf + 20) fields (buf + 20 + m),
      s.splice (buf + 20) fields (buf + 20 + (m + 1))] = _
    rw [h0, h1, hzero.1, hzero.2]
    rfl
  obtain ⟨hbuilt, hkeep⟩ :=
    fillChksum_built (h.splice (Nat.le_refl (buf + 20)) fields) hm hfield (by omega)
  refine ⟨_, rfl, hbuilt, ?_⟩
  intro k hk hout
  rw [hkeep _ (by omega), s.splice_add (buf + 20) fields hk]

theorem buildUdpHdr_built (client destip srcsock destsock ttl buf : Nat) (b : Store)
    (h28 : 28 ≤ len) (hlen : len < 65536) :
    TransportBuilt ipUdp len buf 6
        ((buildUdpHdr client destip srcsock destsock ttl len buf).run b).2 ∧
      be16 ((buildUdpHdr client destip srcsock destsock ttl len buf).run b).2 (buf + 24)
        = len - 20 := by
  rw [run_buildUdpHdr]
  obtain ⟨t, ht, hbuilt, hkeep⟩ := transportHdr_built (m := 6)
    (buildIpHdr_built client destip ttl ipUdp buf b hlen) (udpFields srcsock destsock len)
    (by decide) (Nat.le_refl 8) h28 ⟨rfl, rfl⟩
  rw [ht]
  refine ⟨hbuilt, ?_⟩
  have hudp : wsub len sizeofIphdr = len - 20 :=
    wsub_of_le (show 20 ≤ len by omega) (by omega)
  have hhi : (udpFields srcsock destsock len).get ⟨4, by show 4 < 8; decide⟩
      = UInt8.ofNat (wsub len sizeofIphdr / 256) := rfl
  have hlo : (udpFields srcsock destsock len).get ⟨5, by show 5 < 8; decide⟩
      = UInt8.ofNat (wsub len sizeofIphdr) := rfl
  have h4 := (hkeep 4 _ (by omega)).trans hhi
  have h5 := (hkeep 5 _ (by omega)).trans hlo
  rw [hudp] at h4 h5
  exact be16_be16Bytes h4 h5 (by omega)

theorem buildTcpHdr_built (client destip srcsock destsock sendSeq recvSeq window ttl buf : Nat) {flags : Nat}
    (b : Store) (hflags : flags < 64) (h40 : 40 ≤ len) (hlen : len < 65536) :
    TransportBuilt ipTcp len buf 16
        ((buildTcpHdr client destip srcsock destsock sendSeq recvSeq window flags ttl len buf).run
          b).2 ∧
      be16 ((buildTcpHdr client destip srcsock destsock sendSeq recvSeq window flags ttl len
        buf).run b).2 (buf + 32) = flags + 0x5000 := by
  rw [run_buildTcpHdr]
  obtain ⟨t, ht, hbuilt, hkeep⟩ := transportHdr_built (m := 16)
    (buildIpHdr_built client destip ttl ipTcp buf b hlen)
    (tcpFields srcsock destsock sendSeq recvSeq window flags) (by decide) (Nat.le_refl 18)
    (by show 38 ≤ len; omega) ⟨rfl, rfl⟩
  rw [ht]
  refine ⟨hbuilt, ?_⟩
  have hhi : (tcpFields srcsock destsock sendSeq recvSeq window flags).get
      ⟨12, by show 12 < 18; decide⟩ = UInt8.ofNat ((flags + 0x5000) / 256) := rfl
  have hlo : (tcpFields srcsock destsock sendSeq recvSeq window flags).get
      ⟨13, by show 13 < 18; decide⟩ = UInt8.ofNat (flags + 0x5000) := rfl
  have h12 := (hkeep 12 _ (by omega)).trans hhi
  have h13 := (hkeep 13 _ (by omega)).trans hlo
  exact be16_be16Bytes h12 h13 (by omega)

/-! ## The receiving side -/

/-- The frame in `f` carries the `len` bytes at `buf` of the sender's buffer as an IP packet. -/
structure Carries (f : Store) (packetlen len buf : Nat) (s : Store) : Prop where
  ptype : be16 f 12 = ethPIp
  fits : 14 + len ≤ packetlen
  packet : ∀ k < len, f (14 + k) = s (buf + k)

section Received

variable {f s : Store} {packetlen len buf m : Nat} {protocol : UInt8}

section

variable (h : Carries f packetlen len buf s)

include h

theorem Carries.slice {k n : Nat} (hk : k + n ≤ len) :
    f.slice (14 + k) n = s.slice (buf + k) n :=
  slice_congr (fun j hj => by
    rw [Nat.add_assoc, Nat.add_assoc]
    exact h.packet (k + j) (by omega))

theorem Carries.field {k : Nat} (hk : k + 2 ≤ len) :
    be16 f (14 + k) = be16 s (buf + k) :=
  be16_congr (fun j hj => by
    rw [Nat.add_assoc, Nat.add_assoc]
    exact h.packet (k + j) (by omega))

theorem Carries.isIp (hlen : 20 ≤ len) : IsIp packetlen f :=
  ⟨h.ptype, by have := h.fits; omega⟩

theorem Carries.versionOk (hip : IpBuilt protocol len buf s)
    (hlen : 20 ≤ len) : VersionOk f ∧ iplenOf f = 20 :=
  versionOk_plain ((h.packet 0 (by omega)).trans hip.verhdrlen)

theorem Carries.headerOk (hip : IpBuilt protocol len buf s)
    (hlen : 20 ≤ len) (hmax : len ≤ ethMaxMtu) : HeaderOk f := by
  have hsum : f.slice 14 20 = s.slice buf 20 := h.slice (k := 0) (by omega)
  have hfrags : be16 f 20 = 0 := (h.field (k := 6) (by omega)).trans hip.frags
  have htotal : be16 f 16 = len := (h.field (k := 2) (by omega)).trans hip.total
  refine ⟨?_, ?_, ?_⟩
  · rw [(h.versionOk hip hlen).2, hsum]
    exact hip.chksum
  · rw [hfrags]
    rfl
  · rw [htotal]
    exact hmax

theorem Carries.transportSum (hip : IpBuilt protocol len buf s) (hlen : 20 ≤ len) :
    transportSum f 14 = transportSum s buf := by
  have htl : transportLen f 14 = transportLen s buf := by
    unfold transportLen
    rw [h.field (by omega)]
  have hdata : f.slice (14 + sizeofIphdr) (len - 20) = s.slice (buf + sizeofIphdr) (len - 20) :=
    h.slice (by show 20 + (len - 20) ≤ len; omega)
  unfold Net.transportSum pseudoAt
  rw [htl, hip.transportLen_eq hlen, hdata, h.slice (by omega), h.slice (by omega), h.packet 9 (by omega)]

theorem Carries.checksumOk (hb : TransportBuilt protocol len buf m s) (hlen : 20 ≤ len) : ChecksumOk f := by
  unfold ChecksumOk
  rw [h.transportSum hb.ip hlen]
  exact hb.sum

end

/-- A packet without options is judged on the buffer as it was received. -/
theorem Carries.run (http : Bool) (h : Carries f packetlen len buf s)
    (hip : IpBuilt protocol len buf s) (hlen : 20 ≤ len) (hmax : len ≤ ethMaxMtu)
    (hacc : Accepted http 20 packetlen f) :
    (awaitReplyFrame http packetlen).run f
      = ((some ⟨ethPIp, some 14, udpPtr packetlen f, tcpPtr http packetlen f⟩, packetlen), f) := by
  obtain ⟨hv, hiplen⟩ := h.versionOk hip hlen
  rw [run_awaitReplyFrame http (h.isIp hlen) hv (h.headerOk hip hlen hmax) (if_pos hiplen)
    (if_pos hiplen), hiplen, if_pos hacc]

/-- Every check of `await_reply` for a UDP packet passes, the checksum test being made, and the
    packet is handed on. -/
structure PassesUdp (http : Bool) (packetlen : Nat) (f : Store) : Prop where
  version : VersionOk f
  header : HeaderOk f
  length : UdpLenOk 20 f
  field : be16 f 40 ≠ 0
  chksum : ((tcpudpchksum 14).run f).1 = 0
  handed : (awaitReplyFrame http packetlen).run f
    = ((some ⟨ethPIp, some 14, some 34, none⟩, packetlen), f)

/-- The same for a TCP packet, in a build that has TCP. -/
structure PassesTcp (packetlen : Nat) (f : Store) : Prop where
  version : VersionOk f
  header : HeaderOk f
  offset : TcpOffsetOk 20 f
  chksum : ((tcpudpchksum 14).run f).1 = 0
  handed : (awaitReplyFrame true packetlen).run f
    = ((some ⟨ethPIp, some 14, none, some 34⟩, packetlen), f)

theorem Carries.passesUdp (http : Bool) (h : Carries f packetlen len buf s)
    (hb : TransportBuilt ipUdp len buf 6 s) (hudp : be16 s (buf + 24) = len - 20)
    (h28 : 28 ≤ len) (hmax : len ≤ ethMaxMtu) : PassesUdp http packetlen f := by
  have hfits := h.fits
  have hseen : UdpSeen packetlen f := ⟨(h.packet 9 (by omega)).trans hb.ip.protocol, by omega⟩
  have htotal : be16 f 16 = len := (h.field (k := 2) (by omega)).trans hb.ip.total
  have hlen : UdpLenOk 20 f := by
    have hfield : be16 f 38 = len - 20 := (h.field (k := 24) (by omega)).trans hudp
    have hlt := be16_lt f 16
    rw [UdpLenOk, hfield, wsub_of_le (by omega) (by omega)]
    omega
  have hne : be16 f 40 ≠ 0 := by
    have hfield : be16 f 40 = be16 s (buf + 20 + 6) := h.field (k := 26) (by omega)
    rw [hfield]
    exact hb.field
  have hsum : ChecksumOk f := h.checksumOk hb (by omega)
  have hacc : Accepted http 20 packetlen f :=
    ⟨fun _ => hlen, fun ht => absurd ht hseen.not_tcpSeen, fun _ => hsum⟩
  refine ⟨(h.versionOk hb.ip (by omega)).1, h.headerOk hb.ip (by omega) hmax, hlen, hne, ?_, ?_⟩
  · rw [run_tcpudpchksum]
    exact (sub_canon_eq_zero _).mpr hsum
  · rw [h.run http hb.ip (by omega) hmax hacc, udpPtr, tcpPtr, if_pos hseen, if_neg hseen.not_tcpSeen]

theorem Carries.passesTcp (h : Carries f packetlen len buf s) {flags : Nat}
    (hb : TransportBuilt ipTcp len buf 16 s) (hctrl : be16 s (buf + 32) = flags + 0x5000)
    (hflags : flags < 64) (h40 : 40 ≤ len) (hmax : len ≤ ethMaxMtu) : PassesTcp packetlen f := by
  have hfits := h.fits
  have hseen : TcpSeen true packetlen f :=
    ⟨rfl, (h.packet 9 (by omega)).trans hb.ip.protocol, by omega⟩
  have hno : ¬ UdpSeen packetlen f := fun hu => hu.not_tcpSeen hseen
  have htotal : be16 f 16 = len := (h.field (k := 2) (by omega)).trans hb.ip.total
  have hoff : TcpOffsetOk 20 f := by
    have hfield : be16 f 46 = flags + 0x5000 := (h.field (k := 32) (by omega)).trans hctrl
    -- the flags are shifted out; the five words of the header remain
    have hshift : (flags + 0x5000) >>> 10 = 20 := by
      omega
    rw [TcpOffsetOk, hfield, hshift, htotal]
    show (20 : Int) ≤ _
    omega
  have hsum : ChecksumOk f := h.checksumOk hb (by omega)
  have hacc : Accepted true 20 packetlen f :=
    ⟨fun hu => absurd hu hno, fun _ => hoff, fun _ => hsum⟩
  refine ⟨(h.versionOk hb.ip (by omega)).1, h.headerOk hb.ip (by omega) hmax, hoff, ?_, ?_⟩
  · rw [run_tcpudpchksum]
    exact (sub_canon_eq_zero _).mpr hsum
  · rw [h.run true hb.ip (by omega) hmax hacc, udpPtr, tcpPtr, if_pos hseen, if_neg hno]

end Received

/-- **Sender and receiver agree.** Whatever the addresses, ports, sequence numbers, flags and
    buffer contents, a frame that carries what the builders made passes every check. -/
theorem built_packets_accepted (client destip srcsock destsock ttl len buf packetlen : Nat)
    (b f : Store) (hmax : len ≤ ethMaxMtu) :
    (28 ≤ len →
      Carries f packetlen len buf
        ((buildUdpHdr client destip srcsock destsock ttl len buf).run b).2 →
      ∀ http, PassesUdp http packetlen f) ∧
    (∀ sendSeq recvSeq window flags, flags < 64 → 40 ≤ len →
      Carries f packetlen len buf
        ((buildTcpHdr client destip srcsock destsock sendSeq recvSeq window flags ttl len buf).run
          b).2 →
      PassesTcp packetlen f) := by
  have hlen : len < 65536 := Nat.lt_of_le_of_lt hmax (by decide)
  constructor
  · intro h28 hcarries http
    obtain ⟨hb, hudp⟩ :=
      buildUdpHdr_built client destip srcsock destsock ttl buf b h28 hlen
    exact hcarries.passesUdp http hb hudp h28 hmax
  · intro sendSeq recvSeq window flags hflags h40 hcarries
    obtain ⟨hb, hctrl⟩ := buildTcpHdr_built client destip srcsock destsock sendSeq recvSeq window
      ttl buf b hflags h40 hlen
    exact hcarries.passesTcp hb hctrl hflags h40 hmax

/-- The frame that carries the packet at the start of `s`: an Ethernet header with the type of IP,
    and the packet. -/
def frameOf (s : Store) : Store := fun i => if i < 14 then (if i = 12 then 8 else 0) else s (i - 14)

theorem frameOf_carries {packetlen len : Nat} (s : Store) (h : 14 + len ≤ packetlen) :
    Carries (frameOf s) packetlen len 0 s where
  ptype := rfl
  fits := h
  packet := by
    intro k _
    rw [frameOf, if_neg (by omega), Nat.add_sub_cancel_left, Nat.zero_add]

/-- Packets of 41 bytes, an odd length, built in a zeroed buffer. -/
theorem builtPackets_pass :
    PassesUdp false 55 (frameOf
      ((buildUdpHdr 0x0100000a 0x0200000a 2000 69 60 41 0).run (fun _ => 0)).2) ∧
    PassesTcp 55 (frameOf
      ((buildTcpHdr 0x0100000a 0x0200000a 2000 80 1 7 1400 24 60 41 0).run (fun _ => 0)).2) :=
  ⟨(built_packets_accepted 0x0100000a 0x0200000a 2000 69 60 41 0 55 (fun _ => 0) _
      (by decide)).1 (by decide) (frameOf_carries _ (by decide)) false,
    (built_packets_accepted 0x0100000a 0x0200000a 2000 80 60 41 0 55 (fun _ => 0) _
      (by decide)).2 1 7 1400 24 (by decide) (by decide) (frameOf_carries _ (by decide))⟩

end Net
