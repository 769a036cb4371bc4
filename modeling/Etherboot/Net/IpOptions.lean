import Mathlib.Tactic.IntervalCases
import Etherboot.Net.Confinement

set_option autoImplicit false

/-! # Datagrams with IP options

`await_reply` deletes the options of an IP header by moving what follows them, but leaves `ip->len`
as it was. The pseudo header and the bytes summed by `tcpudpchksum` are then longer than the datagram
by the length of the options. `withOptions_delivered_iff` says for which buffers the checksum comes
out right all the same. -/

namespace Net

open Prog Memory OnesComplement Store

/-- The buffer `b'` holds the frame of `b` with the options `opts` put in: header length and total
    length are raised, the header checksum is right again, all else is the same. -/
structure WithOptions (opts : List UInt8) (packetlen : Nat) (b b' : Store) : Prop where
  ethernet : ∀ i < 14, b' i = b i
  verhdrlen : (b' 14).toNat = 0x45 + opts.length / 4
  service : b' 15 = b 15
  total : be16 b' 16 = be16 b 16 + opts.length
  middle : ∀ i, 18 ≤ i → i < 24 → b' i = b i
  chksum : ipchksum (b'.slice 14 (20 + opts.length)) = 0
  addresses : ∀ i, 26 ≤ i → i < 34 → b' i = b i
  options : b'.Has 34 opts
  payload : ∀ k, 34 + k < packetlen → b' (34 + opts.length + k) = b (34 + k)

/-- The frame in `b'` is handed on as `h`, with the bytes of `b` from the UDP or TCP header to the
    end of the frame in their places. -/
def DeliveredAs (http : Bool) (packetlen n : Nat) (h : Handed) (b b' : Store) : Prop :=
  ((awaitReplyFrame http (packetlen + n)).run b').1 = (some h, packetlen) ∧
    ∀ i, 34 ≤ i → i < packetlen → ((awaitReplyFrame http (packetlen + n)).run b').2 i = b i

/-- The `n` bytes that stand behind the datagram once the options are gone. The move covers
    `packetlen` bytes, so that most of them are brought there from behind the received frame. -/
def trailing (n packetlen total : Nat) (b' : Store) : List UInt8 :=
  (List.range n).map fun j =>
    if 14 + total + j < 34 + packetlen then b' (14 + total + j + n) else b' (14 + total + j)

/-! ## The buffer after the move -/

variable {n packetlen : Nat}

section

variable (hn : n ≤ 40) (hmax : packetlen + n ≤ 1514)

include hn hmax

theorem wsub_options :
    wsub (packetlen + n) (wsub (20 + n) 20) = packetlen := by
  have hopt : wsub (20 + n) 20 = n := by
    rw [wsub_of_le (by omega) (by omega)]
    omega
  rw [hopt, wsub_of_le (by omega) (by omega)]
  omega

theorem strippedLen_add :
    strippedLen (20 + n) (packetlen + n) = packetlen := by
  unfold strippedLen
  split
  · omega
  · exact wsub_options hn hmax

theorem strippedStore_apply (b' : Store) (i : Nat) :
    strippedStore (20 + n) (packetlen + n) b' i
      = if 34 ≤ i ∧ i < 34 + packetlen then b' (i + n) else b' i := by
  unfold strippedStore
  by_cases h0 : n = 0
  · subst h0
    simp
  · rw [if_neg (by omega), wsub_options hn hmax]
    by_cases hin : 34 ≤ i ∧ i < 34 + packetlen
    · obtain ⟨k, rfl⟩ : ∃ k, i = 34 + k := ⟨i - 34, by omega⟩
      rw [if_pos hin, splice_slice _ _ _ _ _ (by omega), show 14 + (20 + n) + k = 34 + k + n by omega]
    · rw [if_neg hin]
      by_cases hlt : i < 34
      · exact splice_of_lt _ _ hlt
      · exact splice_of_ge _ _ (by rw [length_slice]; omega)

end

section Moved

variable {opts : List UInt8} {packetlen : Nat} {b b' : Store}

/-- The buffer after the options are deleted: the header as received, the datagram of `b`. -/
structure Moved (opts : List UInt8) (packetlen : Nat) (b b' s : Store) : Prop where
  header : ∀ i < 34, s i = b' i
  datagram : ∀ i, 34 ≤ i → i < packetlen → s i = b i
  behind : 14 + be16 b 16 ≤ packetlen →
    s.slice (14 + be16 b 16) opts.length = trailing opts.length packetlen (be16 b 16) b'

theorem WithOptions.moved (hw : WithOptions opts packetlen b b') (h40 : opts.length ≤ 40)
    (hmax : packetlen + opts.length ≤ 1514) (h20 : 20 ≤ be16 b 16) :
    Moved opts packetlen b b'
      (strippedStore (20 + opts.length) (packetlen + opts.length) b') := by
  refine ⟨?_, ?_, ?_⟩
  · intro i hi
    rw [strippedStore_apply h40 hmax, if_neg (by omega)]
  · intro i hlo hhi
    obtain ⟨k, rfl⟩ : ∃ k, i = 34 + k := ⟨i - 34, by omega⟩
    rw [strippedStore_apply h40 hmax, if_pos (by omega), ← hw.payload k hhi, Nat.add_right_comm]
  · intro hfit
    apply List.map_congr_left
    intro j _
    rw [strippedStore_apply h40 hmax]
    by_cases hj : 14 + be16 b 16 + j < 34 + packetlen
    · rw [if_pos (by omega), if_pos hj]
    · rw [if_neg (by omega), if_neg hj]

variable {s : Store}

theorem Moved.protocol (hm : Moved opts packetlen b b' s) (hw : WithOptions opts packetlen b b') :
    s 23 = b 23 := by
  rw [hm.header _ (by omega), hw.middle _ (by omega) (by omega)]

theorem Moved.field (hm : Moved opts packetlen b b' s) {p : Nat} (hlo : 34 ≤ p)
    (hhi : p + 1 < packetlen) : be16 s p = be16 b p :=
  be16_congr (fun k hk => hm.datagram _ (by omega) (by omega))

theorem Moved.total (hm : Moved opts packetlen b b' s) (hw : WithOptions opts packetlen b b') :
    be16 s 16 = be16 b 16 + opts.length := by
  rw [← hw.total]
  exact be16_congr (fun k hk => hm.header _ (by omega))

/-! ## The sum over the moved datagram -/

theorem byteSum_be16Bytes {v : Nat} (h : v < 65536) :
    byteSum false (be16Bytes v) % 65535 = 256 * v % 65535 := by
  have hsum : byteSum false (be16Bytes v) = v / 256 + 256 * (v % 256) := by
    simp only [be16Bytes, byteSum, UInt8.toNat_ofNat', Bool.not_false, Bool.false_eq_true, if_true,
      if_false]
    omega
  have hswap : 256 * v = v / 256 + 256 * (v % 256) + 65535 * (v / 256) := by omega
  rw [hsum, hswap, Nat.add_mul_mod_self_left]

/-- The length field is the last word of a pseudo header. -/
theorem byteSum_udpPseudoHdr {src dest : List UInt8} (hs : src.length = 4) (hd : dest.length = 4)
    (protocol : UInt8) {len : Nat} (hlen : len < 65536) :
    byteSum false (udpPseudoHdr src dest protocol len) % 65535
      = (byteSum false (src ++ dest ++ [0, protocol]) + 256 * len) % 65535 := by
  have hpar : parity false (src ++ dest ++ [0, protocol]).length = false := by
    simp [hs, hd, parity]
  rw [udpPseudoHdr, byteSum_append, hpar, Nat.add_mod, byteSum_be16Bytes hlen, ← Nat.add_mod]

theorem transportSum_pos {b : Store} {ip : Nat} (h : b (ip + 9) ≠ 0) : 0 < transportSum b ip := by
  have hne : byteSum false (pseudoAt b ip) ≠ 0 := by
    rw [Ne, byteSum_eq_zero]
    intro hall
    exact h (hall _ (by simp [pseudoAt, udpPseudoHdr]))
  unfold transportSum
  omega

/-- What the unchanged `ip->len` adds to the sum: the length of the options in the pseudo header,
    and as many bytes behind the datagram. -/
theorem Moved.transportSum_mod (hm : Moved opts packetlen b b' s)
    (hw : WithOptions opts packetlen b b') (hfit : TotalFits packetlen b)
    (hmax : packetlen + opts.length ≤ 1514) :
    transportSum s 14 % 65535
      = (transportSum b 14 + (256 * opts.length + byteSum (parity false (be16 b 16))
          (trailing opts.length packetlen (be16 b 16) b'))) % 65535 := by
  obtain ⟨h20, hin⟩ := hfit
  have htotal := hm.total hw
  have hsrc : s.slice 26 4 = b.slice 26 4 := slice_congr (fun k hk => by
    rw [hm.header _ (by omega), hw.addresses _ (by omega) (by omega)])
  have hdest : s.slice 30 4 = b.slice 30 4 := slice_congr (fun k hk => by
    rw [hm.header _ (by omega), hw.addresses _ (by omega) (by omega)])
  have hlen : transportLen b 14 = be16 b 16 - 20 := transportLen_eq h20
  have hlen' : transportLen s 14 = be16 b 16 - 20 + opts.length := by
    rw [transportLen_eq (show 20 ≤ be16 s 16 by omega), htotal]
    omega
  -- the summed bytes are the datagram and what stands behind it
  have hdata : s.slice 34 (be16 b 16 - 20 + opts.length)
      = b.slice 34 (be16 b 16 - 20)
        ++ trailing opts.length packetlen (be16 b 16) b' := by
    have hsame : s.slice 34 (be16 b 16 - 20) = b.slice 34 (be16 b 16 - 20) :=
      slice_congr (fun k hk => hm.datagram _ (by omega) (by omega))
    rw [slice_append, hsame, ← hm.behind hin, show 34 + (be16 b 16 - 20) = 14 + be16 b 16 by omega]
  have hpar : parity false (b.slice 34 (be16 b 16 - 20)).length = parity false (be16 b 16) := by
    unfold parity
    rw [length_slice, show (be16 b 16 - 20) % 2 = be16 b 16 % 2 by omega]
  have hps := byteSum_udpPseudoHdr (length_slice s 26 4) (length_slice s 30 4) (s 23)
    (show be16 b 16 - 20 + opts.length < 65536 by omega)
  have hpb := byteSum_udpPseudoHdr (length_slice b 26 4) (length_slice b 30 4) (b 23)
    (show be16 b 16 - 20 < 65536 by omega)
  unfold transportSum pseudoAt
  simp only [hlen, hlen', sizeofIphdr, Nat.reduceAdd, hdata, byteSum_append, hpar]
  rw [hsrc, hdest, hm.protocol hw] at hps ⊢
  omega

/-! ## The checks on the moved datagram -/

variable {http : Bool}

section

variable (hm : Moved opts packetlen b b' s) (hw : WithOptions opts packetlen b b')

include hm hw

theorem Moved.udpSeen :
    UdpSeen packetlen s ↔ UdpSeen packetlen b := by
  rw [UdpSeen, UdpSeen, hm.protocol hw]

theorem Moved.tcpSeen :
    TcpSeen http packetlen s ↔ TcpSeen http packetlen b := by
  rw [TcpSeen, TcpSeen, hm.protocol hw]

/-- The length checks use `iplen`, which has grown with `ip->len`. -/
theorem Moved.udpLenOk (hfit : TotalFits packetlen b) (hu : UdpSeen packetlen b) :
    UdpLenOk (20 + opts.length) s ↔ UdpLenOk 20 b := by
  have h42 := hu.2
  have h20 := hfit.1
  have hlt' := be16_lt s 16
  have htotal := hm.total hw
  rw [UdpLenOk, UdpLenOk, hm.field (by omega) (by omega), wsub_of_le (by omega) (by omega),
    wsub_of_le h20 (by omega)]
  omega

theorem Moved.tcpOffsetOk (ht : TcpSeen http packetlen b) :
    TcpOffsetOk (20 + opts.length) s ↔ TcpOffsetOk 20 b := by
  have h54 := ht.2.2
  have htotal := hm.total hw
  rw [TcpOffsetOk, TcpOffsetOk, hm.field (by omega) (by omega)]
  omega

theorem Moved.checksummed (hfit : TotalFits packetlen b) :
    Checksummed http (20 + opts.length) packetlen s ↔ Checksummed http 20 packetlen b := by
  unfold Checksummed
  rw [hm.udpSeen hw, hm.tcpSeen hw]
  apply or_congr
  · apply and_congr_right
    intro hu
    have h42 := hu.2
    rw [hm.udpLenOk hw hfit hu, hm.field (by omega) (by omega)]
  · apply and_congr_right
    intro ht
    exact hm.tcpOffsetOk hw ht

end

theorem Checksummed.protocol_ne_zero {iplen : Nat} (h : Checksummed http iplen packetlen b) : b 23 ≠ 0 := by
  rcases h with ⟨⟨hp, -⟩, -⟩ | ⟨⟨-, hp, -⟩, -⟩ <;> rw [hp] <;> decide

/-- What the options add to the sum is a multiple of `0xffff`. -/
def OptionsCancel (n packetlen : Nat) (b b' : Store) : Prop :=
  (256 * n + byteSum (parity false (be16 b 16)) (trailing n packetlen (be16 b 16) b')) % 65535 = 0
  deriving Decidable

theorem Moved.accepted_iff (hm : Moved opts packetlen b b' s)
    (hw : WithOptions opts packetlen b b') (hfit : TotalFits packetlen b)
    (hmax : packetlen + opts.length ≤ 1514) (ha : Accepted http 20 packetlen b) :
    Accepted http (20 + opts.length) packetlen s ↔
      (Checksummed http 20 packetlen b → OptionsCancel opts.length packetlen b b') := by
  obtain ⟨hudp, htcp, hsum⟩ := ha
  have hlens : (UdpSeen packetlen s → UdpLenOk (20 + opts.length) s) ∧
      (TcpSeen http packetlen s → TcpOffsetOk (20 + opts.length) s) := by
    rw [hm.udpSeen hw, hm.tcpSeen hw]
    exact ⟨fun hu => (hm.udpLenOk hw hfit hu).mpr (hudp hu), fun ht => (hm.tcpOffsetOk hw ht).mpr (htcp ht)⟩
  unfold Accepted
  rw [← and_assoc, and_iff_right hlens, hm.checksummed hw hfit]
  apply forall_congr'
  intro hc
  have hok := hsum hc
  have hpos : 0 < transportSum s 14 := transportSum_pos (by
    rw [hm.protocol hw]
    exact hc.protocol_ne_zero)
  have hmod := hm.transportSum_mod hw hfit hmax
  have hzero := hok.2
  unfold ChecksumOk OptionsCancel
  omega

end Moved

/-! ## The enlarged frame -/

theorem accepted_of_handed {http : Bool} {packetlen : Nat} {b : Store} {h : Handed}
    (hip : IsIp packetlen b) (hver : b 14 = 0x45)
    (hhanded : ((awaitReplyFrame http packetlen).run b).1.1 = some h) :
    HeaderOk b ∧ Accepted http 20 packetlen b ∧
      h = ⟨ethPIp, some 14, udpPtr packetlen b, tcpPtr http packetlen b⟩ := by
  obtain ⟨hv, hiplen⟩ := versionOk_plain hver
  by_cases hh : HeaderOk b
  · have hlen : strippedLen (iplenOf b) packetlen = packetlen := if_pos hiplen
    have hstore : strippedStore (iplenOf b) packetlen b = b := if_pos hiplen
    rw [run_awaitReplyFrame http hip hv hh hlen hstore, hiplen] at hhanded
    by_cases ha : Accepted http 20 packetlen b
    · rw [if_pos ha] at hhanded
      exact ⟨hh, ha, (Option.some.inj hhanded).symm⟩
    · rw [if_neg ha] at hhanded
      cases hhanded
  · rw [run_awaitReplyFrame_dropped http hip (fun hvh => hh hvh.2)] at hhanded
    cases hhanded

section Enlarged

variable {opts : List UInt8} {packetlen : Nat} {b b' : Store}

section

variable (hw : WithOptions opts packetlen b b')

include hw

theorem WithOptions.versionOk (h4 : opts.length % 4 = 0)
    (h40 : opts.length ≤ 40) : VersionOk b' ∧ iplenOf b' = 20 + opts.length := by
  have hver := hw.verhdrlen
  have hmod : (b' 14).toNat &&& 0xf = (b' 14).toNat % 16 := Nat.and_two_pow_sub_one_eq_mod _ 4
  unfold VersionOk iplenOf iplenBits
  omega

theorem WithOptions.isIp (hip : IsIp packetlen b) :
    IsIp (packetlen + opts.length) b' := by
  refine ⟨?_, Nat.le_trans hip.2 (Nat.le_add_right _ _)⟩
  rw [← hip.1]
  exact be16_congr (fun k hk => hw.ethernet _ (by omega))

theorem WithOptions.headerOk (hh : HeaderOk b)
    (hiplen : iplenOf b' = 20 + opts.length) (hfit : TotalFits packetlen b)
    (hmax : packetlen + opts.length ≤ 1514) : HeaderOk b' := by
  refine ⟨?_, ?_, ?_⟩
  · rw [hiplen]
    exact hw.chksum
  · have hfrags : be16 b' 20 = be16 b 20 :=
      be16_congr (fun k hk => hw.middle (20 + k) (by omega) (by omega))
    rw [hfrags]
    exact hh.2.1
  · have hin := hfit.2
    rw [hw.total]
    unfold ethMaxMtu
    omega

theorem WithOptions.run {http : Bool}
    (hip : IsIp packetlen b) (hh : HeaderOk b) (hfit : TotalFits packetlen b)
    (h4 : opts.length % 4 = 0) (h40 : opts.length ≤ 40)
    (hmax : packetlen + opts.length ≤ 1514) :
    ∃ s, Moved opts packetlen b b' s ∧
      (awaitReplyFrame http (packetlen + opts.length)).run b'
        = ((if Accepted http (20 + opts.length) packetlen s
              then some ⟨ethPIp, some 14, udpPtr packetlen b, tcpPtr http packetlen b⟩ else none,
            packetlen), s) := by
  obtain ⟨hv', hiplen⟩ := hw.versionOk h4 h40
  have hm := hw.moved h40 hmax hfit.1
  refine ⟨_, hm, ?_⟩
  have hlen : strippedLen (iplenOf b') (packetlen + opts.length) = packetlen := by
    rw [hiplen]
    exact strippedLen_add h40 hmax
  have hudp : udpPtr packetlen (strippedStore (20 + opts.length) (packetlen + opts.length) b')
      = udpPtr packetlen b := by
    simp only [udpPtr, hm.udpSeen hw]
  have htcp : tcpPtr http packetlen (strippedStore (20 + opts.length) (packetlen + opts.length) b')
      = tcpPtr http packetlen b := by
    simp only [tcpPtr, hm.tcpSeen hw]
  rw [run_awaitReplyFrame http (hw.isIp hip) hv' (hw.headerOk hh hiplen hfit hmax) hlen rfl, hiplen,
    hudp, htcp]

end

/-- **Options.** Take a datagram without options that `await_reply` hands on. With options put in,
    it is handed on in the same way exactly when no UDP or TCP checksum is verified, or the length of
    the options and the bytes behind the datagram happen to cancel in the sum. -/
theorem withOptions_delivered_iff (http : Bool) (packetlen : Nat) (b b' : Store)
    (opts : List UInt8) (h : Handed) (hip : IsIp packetlen b) (hver : b 14 = 0x45)
    (hfit : TotalFits packetlen b)
    (hhanded : ((awaitReplyFrame http packetlen).run b).1.1 = some h)
    (h4 : opts.length % 4 = 0) (h40 : opts.length ≤ 40)
    (hmtu : packetlen + opts.length ≤ ethFrameLen) (hw : WithOptions opts packetlen b b') :
    DeliveredAs http packetlen opts.length h b b' ↔
      (Checksummed http 20 packetlen b → OptionsCancel opts.length packetlen b b') := by
  obtain ⟨hh, ha, rfl⟩ := accepted_of_handed hip hver hhanded
  obtain ⟨s, hm, hrun⟩ := hw.run hip hh hfit h4 h40 hmtu
  rw [DeliveredAs, hrun, ← hm.accepted_iff hw hfit hmtu ha]
  constructor
  · rintro ⟨hrep, -⟩
    by_contra hna
    rw [if_neg hna] at hrep
    simp at hrep
  · intro hacc
    rw [if_pos hacc]
    exact ⟨rfl, hm.datagram⟩

end Enlarged

/-! ## A datagram with a router alert -/

/-- A UDP datagram with one byte of payload and the checksum bytes `c0` and `c1`. -/
def plainFrame (c0 c1 : UInt8) : Store :=
  bufferOf ([0, 0, 0, 0, 0, 0, 0, 0, 0, 0, 0, 0, 8, 0] ++
    [0x45, 0, 0, 29, 0, 0, 0, 0, 60, 17, 106, 206, 10, 0, 0, 1, 10, 0, 0, 2] ++
    [7, 208, 7, 209, 0, 9, c0, c1] ++ [0])

/-- The same datagram with a router alert option. -/
def routerAlertFrame (c0 c1 : UInt8) : Store :=
  bufferOf ([0, 0, 0, 0, 0, 0, 0, 0, 0, 0, 0, 0, 8, 0] ++
    [0x46, 0, 0, 33, 0, 0, 0, 0, 60, 17, 213, 197, 10, 0, 0, 1, 10, 0, 0, 2] ++ [0x94, 4, 0, 0] ++
    [7, 208, 7, 209, 0, 9, c0, c1] ++ [0])

theorem routerAlertFrame_withOptions (c0 c1 : UInt8) :
    WithOptions [0x94, 4, 0, 0] 43 (plainFrame c0 c1) (routerAlertFrame c0 c1) where
  ethernet := by
    intro i hi
    interval_cases i <;> rfl
  verhdrlen := rfl
  service := rfl
  total := rfl
  middle := by
    intro i hlo hhi
    interval_cases i <;> rfl
  chksum := by
    have hslice : (routerAlertFrame c0 c1).slice 14 24
        = [0x46, 0, 0, 33, 0, 0, 0, 0, 60, 17, 213, 197, 10, 0, 0, 1, 10, 0, 0, 2] ++
          [0x94, 4, 0, 0] := rfl
    show ipchksum ((routerAlertFrame c0 c1).slice 14 24) = 0
    rw [hslice]
    decide
  addresses := by
    intro i hlo hhi
    interval_cases i <;> rfl
  options := rfl
  payload := by
    intro k hk
    have hk9 : k < 9 := by omega
    interval_cases k <;> rfl

/-- Without a UDP checksum the options do no harm. -/
theorem routerAlertFrame_delivered :
    WithOptions [0x94, 4, 0, 0] 43 (plainFrame 0 0) (routerAlertFrame 0 0) ∧
    DeliveredAs false 43 4 ⟨0x0800, some 14, some 34, none⟩ (plainFrame 0 0)
      (routerAlertFrame 0 0) :=
  ⟨routerAlertFrame_withOptions 0 0,
    (withOptions_delivered_iff false 43 (plainFrame 0 0) (routerAlertFrame 0 0) [0x94, 4, 0, 0]
      ⟨0x0800, some 14, some 34, none⟩ (by decide) (by decide) (by decide) (by decide) (by decide)
      (by decide) (by decide) (routerAlertFrame_withOptions 0 0)).mpr (by decide)⟩

set_option maxRecDepth 4000 in
/-- With the checksum that makes the plain datagram acceptable, the router alert makes the code drop
    it: it verifies a datagram four bytes longer. -/
theorem routerAlertFrame_dropped :
    ((awaitReplyFrame false 43).run (plainFrame 220 56)).1
      = (some ⟨0x0800, some 14, some 34, none⟩, 43) ∧
    TotalFits 43 (plainFrame 220 56) ∧
    WithOptions [0x94, 4, 0, 0] 43 (plainFrame 220 56) (routerAlertFrame 220 56) ∧
    ((awaitReplyFrame false 47).run (routerAlertFrame 220 56)).1 = (none, 43) := by
  refine ⟨by decide, by decide, routerAlertFrame_withOptions 220 56, ?_⟩
  decide

end Net
