import Etherboot.Slam.Nack

set_option autoImplicit false

/-! # The client's accounts

The client counts the packets it has stored and passes the image on when the count reaches the number
of packets. The count is that of the bits set in the bitmap, and every bit stands for a piece of the
file in its place (`Tracks`). Two packets break this: one with the number `total_packets`, which
`slam_recv_data` lets through and stores behind the image, and the last packet of a file that is a
whole number of blocks, whose length is expected to be 0. `slam_accounted` says that in every run
without such packets the accounts are right. -/

namespace Slam

open Memory Bitmap SlamState Client

/-- The length of a piece of the file. -/
def SlamState.pieceLen (st : SlamState) (p : Nat) : Nat :=
  min st.blockSize (st.totalBytes - p * st.blockSize)

/-- Piece `p` has been put in its place. -/
def SlamState.stored (st : SlamState) (p : Nat) : Bool :=
  st.puts.any (fun q => q.dst == (st.image + p * st.blockSize) % 2 ^ 32 && q.len == st.pieceLen p)

/-- The count is that of the pieces stored, and all stores are inside the image. -/
structure SlamState.Ok (st : SlamState) : Prop where
  received : st.receivedPackets = (List.range st.totalPackets).countP st.stored
  inside : ∀ q ∈ st.puts, ∀ a < 2 ^ 32, above q.dst a < q.len → above st.image a < st.totalBytes

/-- The accounts are right, and an image that is passed on is complete. -/
structure Accounted (c : Client) : Prop where
  ok : c.st.Ok
  passed : ∀ image len, c.status = .passed image len →
    image = c.st.image ∧ len = c.st.totalBytes ∧ ∀ p < c.st.totalPackets, c.st.stored p = true

/-- A transfer, with the position of the packet number behind its header. -/
structure Transfer where
  totalBytes : Nat
  blockSize : Nat
  totalPackets : Nat
  data : Nat
  deriving DecidableEq, Repr

def SlamState.transfer (st : SlamState) (data : Nat) : Transfer :=
  ⟨st.totalBytes, st.blockSize, st.totalPackets, data⟩

/-- The transfer that a packet belongs to: the one at hand, or the one that its header starts. -/
def Client.transfer (c : Client) (p : Packet) : Option Transfer :=
  if c.st.knows p then some (c.st.transfer (headerOffset + c.st.hdrLen))
  else
    let (totalBytes, blockSize, data, err) := p.header
    if err ≠ 0 ∨ blockSize = 0 then none
    else some ⟨totalBytes, blockSize, (totalBytes + blockSize - 1) / blockSize, data⟩

/-- There is room for the bitmap of a new transfer. -/
def HasRoom (c : Client) (p : Packet) (t : Transfer) : Prop :=
  c.st.knows p = false →
    ((if c.st.bitmap ≠ 0 then c.heap.forget (some c.st.bitmap) else c.heap).allot
      ((t.totalPackets + 1 + 7) / 8)).1.isSome = true
  deriving Decidable

/-- The number of a data packet is not `total_packets`, and not that of a last packet of a whole
    block. -/
def Numbered (t : Transfer) (p : Packet) : Prop :=
  (slamDecode 4 p.bytes t.data p.packetlen 0).2.2 = 0 →
    (slamDecode 4 p.bytes t.data p.packetlen 0).1 ≠ t.totalPackets ∧
      ((slamDecode 4 p.bytes t.data p.packetlen 0).1 + 1 = t.totalPackets →
        t.totalBytes % t.blockSize ≠ 0)
  deriving Decidable

/-- The condition on an event. -/
def Proper (c : Client) : Event → Prop
  | .timeout => True
  | .request p => ∀ t ∈ c.transfer p, HasRoom c p t
  | .data p => ∀ t ∈ c.transfer p, HasRoom c p t ∧ Numbered t p

instance (c : Client) (e : Event) : Decidable (Proper c e) :=
  match e with
  | .timeout => inferInstanceAs (Decidable True)
  | .request p => inferInstanceAs (Decidable (∀ t ∈ c.transfer p, HasRoom c p t))
  | .data p => inferInstanceAs (Decidable (∀ t ∈ c.transfer p, HasRoom c p t ∧ Numbered t p))

/-! ## A transfer and its memory -/

/-- The state of a transfer agrees with the memory: the bitmap lies behind the image, and its bits
    are those of the pieces stored. -/
structure Tracks (st : SlamState) (mem : Store) : Prop where
  blockSize_pos : 0 < st.blockSize
  totalBytes_lt : st.totalBytes < 2 ^ 29
  blockSize_lt : st.blockSize < 2 ^ 29
  totalPackets_eq : st.totalPackets = (st.totalBytes + st.blockSize - 1) / st.blockSize
  layout : ∃ d, st.totalBytes ≤ d ∧ d + st.totalPackets / 8 < 2 ^ 32 ∧
    st.bitmap % 2 ^ 32 = (st.image + d) % 2 ^ 32
  received : st.receivedPackets = Bitmap.count mem st.bitmap st.totalPackets
  bits : ∀ p < st.totalPackets, Bitmap.bit mem st.bitmap p = st.stored p
  inside : ∀ q ∈ st.puts, ∀ a < 2 ^ 32, above q.dst a < q.len → above st.image a < st.totalBytes

/-- Nothing has been received yet, and there is no bitmap. -/
structure Fresh (st : SlamState) : Prop where
  totalPackets : st.totalPackets = 0
  receivedPackets : st.receivedPackets = 0
  puts : st.puts = []
  bitmap : st.bitmap = 0

variable {st : SlamState} {mem : Store} {data n : Nat} {c : Client} {p : Packet}

theorem stored_eq_false (h : st.puts = []) (p : Nat) : st.stored p = false := by
  simp [stored, h]

theorem ok_of_no_puts (hputs : st.puts = []) (hrec : st.receivedPackets = 0) : st.Ok := by
  refine ⟨?_, by simp [hputs]⟩
  rw [hrec, eq_comm, List.countP_eq_zero]
  simp [stored_eq_false hputs]

theorem Fresh.ok (h : Fresh st) : st.Ok := ok_of_no_puts h.puts h.receivedPackets

theorem Tracks.ok (h : Tracks st mem) : st.Ok := by
  refine ⟨?_, h.inside⟩
  rw [h.received, count]
  exact List.countP_congr (fun p hp => by rw [h.bits p (List.mem_range.mp hp)])

theorem packets_lt {size blockSize : Nat} (hsize : size < 2 ^ 29) (hblock : blockSize < 2 ^ 29) :
    (size + blockSize - 1) / blockSize < 2 ^ 30 := by
  have := Nat.div_le_self (size + blockSize - 1) blockSize
  omega

theorem Tracks.totalPackets_lt (h : Tracks st mem) : st.totalPackets < 2 ^ 30 :=
  h.totalPackets_eq ▸ packets_lt h.totalBytes_lt h.blockSize_lt

/-- A change of memory that keeps the packets' bits keeps the agreement. -/
theorem Tracks.congr {mem' : Store} (h : Tracks st mem)
    (hbits : ∀ p < st.totalPackets, bit mem' st.bitmap p = bit mem st.bitmap p) :
    Tracks st mem' :=
  { h with
    received := by rw [h.received, count_congr hbits]
    bits := fun p hp => by rw [hbits p hp, h.bits p hp] }

/-! ## A new transfer -/

theorem slamDecode_lt (m : Store) (ptr fin : Nat) (err : Int) :
    (slamDecode 4 m ptr fin err).1 < 2 ^ 29 := by
  simp only [slamDecode]
  split
  · show 0 < 2 ^ 29
    decide
  · next hlen =>
    have hhas : m.Has (ptr + 1) (m.slice (ptr + 1) (fieldLen (m ptr) - 1)) := by
      simp [Store.Has]
    have htop : (m ptr).toNat &&& 0x1f < 32 := by rw [and_1f]; omega
    have hpow : 256 ^ (fieldLen (m ptr) - 1) ≤ 256 ^ 3 := Nat.pow_le_pow_right (by decide) (by omega)
    have hget := getBytes_eq 4 ((m ptr).toNat &&& 0x1f) hhas (by
      rw [Store.length_slice]
      calc _ ≤ 32 * 256 ^ 3 := Nat.mul_le_mul (by omega) hpow
        _ ≤ 256 ^ 4 := by decide)
    have hlt := beValue_lt (m.slice (ptr + 1) (fieldLen (m ptr) - 1)) htop
    rw [Store.length_slice] at hget hlt
    omega

/-- The fields of a transfer that is to be given its room. -/
structure Opened (st : SlamState) : Prop where
  blockSize_pos : 0 < st.blockSize
  totalBytes_lt : st.totalBytes < 2 ^ 29
  blockSize_lt : st.blockSize < 2 ^ 29
  totalPackets_eq : st.totalPackets = (st.totalBytes + st.blockSize - 1) / st.blockSize
  receivedPackets : st.receivedPackets = 0
  puts : st.puts = []

theorem addr_bitmap {d : Nat} (h : st.bitmap % 2 ^ 32 = (st.image + d) % 2 ^ 32) (p : Nat) :
    addr st.bitmap p = (st.image + (d + p / 8)) % 2 ^ 32 := by
  rw [addr, Nat.shiftRight_eq_div_pow]
  omega

theorem bit_memset {bitmap len p : Nat} (hp : p / 8 < len) (hlen : len < 2 ^ 32) :
    bit (memset mem bitmap 0 len) bitmap p = false := by
  have hbyte : memset mem bitmap 0 len (addr bitmap p) = 0 := by
    rw [memset_apply, if_pos]
    rw [addr, Nat.shiftRight_eq_div_pow, above_add (by omega)]
    exact hp
  rw [bit, hbyte]
  exact Nat.zero_testBit _

/-- With a clear bitmap behind the image, a new transfer agrees with the memory. -/
theorem Opened.tracks (h : Opened st)
    (hlayout : ∃ d, st.totalBytes ≤ d ∧ d + st.totalPackets / 8 < 2 ^ 32 ∧
      st.bitmap % 2 ^ 32 = (st.image + d) % 2 ^ 32)
    (hclear : ∀ p < st.totalPackets, bit mem st.bitmap p = false) : Tracks st mem := by
  refine ⟨h.blockSize_pos, h.totalBytes_lt, h.blockSize_lt, h.totalPackets_eq, hlayout, ?_, ?_, ?_⟩
  · rw [h.receivedPackets, count, eq_comm, List.countP_eq_zero]
    intro p hp
    rw [hclear p (List.mem_range.mp hp)]
    decide
  · intro p hp
    rw [stored_eq_false h.puts, hclear p hp]
  · intro q hq
    rw [h.puts] at hq
    cases hq

theorem allotTransfer_entered {st' : SlamState} {heap heap' : Alloc.Heap}
    (hopen : Opened st) (h : allotTransfer st heap = .entered st' heap' data) :
    st'.transfer data = st.transfer (headerOffset + st.hdrLen) ∧
      (((if st.bitmap ≠ 0 then heap.forget (some st.bitmap) else heap).allot
          ((st.totalPackets + 1 + 7) / 8)).1.isSome = true → Tracks st' heap'.mem) := by
  simp only [allotTransfer] at h
  generalize (if st.bitmap ≠ 0 then heap.forget (some st.bitmap) else heap) = heap₀ at h ⊢
  rcases heap₀.allot_cases ((st.totalPackets + 1 + 7) / 8) with hno | hsome
  · rw [hno] at h ⊢
    split at h
    · cases h
    · obtain ⟨rfl, -, rfl⟩ := h
      exact ⟨rfl, nofun⟩
  · rw [hsome] at h
    have hlt := heap₀.allotAddr_lt ((st.totalPackets + 1 + 7) / 8)
    generalize heap₀.allotAddr ((st.totalPackets + 1 + 7) / 8) = a at h hlt
    generalize heap₀.mem.splice _ _ = mem₀ at h
    rcases Alloc.Heap.allot_cases { heap₀ with heapPtr := a, mem := mem₀ } st.totalBytes with
      hno | hsome
    · rw [hno] at h
      simp at h
    · obtain ⟨d, hd1, hd2, hd3⟩ := Alloc.Heap.allotAddr_eq { heap₀ with heapPtr := a, mem := mem₀ }
        st.totalBytes hlt
      rw [hsome] at h
      generalize Alloc.Heap.allotAddr _ _ = b at h hd3
      simp only [Option.getD_some] at h hd3
      split at h
      · cases h
      · obtain ⟨rfl, rfl, rfl⟩ := h
        refine ⟨rfl, fun _ => ?_⟩
        have hT := hopen.totalBytes_lt
        have hn : st.totalPackets < 2 ^ 30 := hopen.totalPackets_eq ▸ packets_lt hT hopen.blockSize_lt
        have hopen' : Opened { st with bitmap := a + 4, image := b + 4 } :=
          ⟨hopen.blockSize_pos, hT, hopen.blockSize_lt, hopen.totalPackets_eq, hopen.receivedPackets,
            hopen.puts⟩
        refine hopen'.tracks ⟨d + 4, Nat.le_trans hd1 (Nat.le_add_right ..), ?_, ?_⟩
          (fun p hp => bit_memset ?_ ?_)
        · show d + 4 + st.totalPackets / 8 < 2 ^ 32
          omega
        · show (a + 4) % 2 ^ 32 = (b + 4 + (d + 4)) % 2 ^ 32
          omega
        · replace hp : p < st.totalPackets := hp
          omega
        · omega

theorem allotTransfer_refused {st' : SlamState} {heap heap' : Alloc.Heap}
    (h : allotTransfer st heap = .refused st' heap') :
    st'.puts = st.puts ∧ st'.receivedPackets = st.receivedPackets := by
  simp only [allotTransfer] at h
  generalize (if st.bitmap ≠ 0 then heap.forget (some st.bitmap) else heap) = heap₀ at h
  split at h
  · simp only [Entry.refused.injEq] at h
    rw [← h.1]
    exact ⟨rfl, rfl⟩
  · cases h

theorem le_slamDecode (m : Store) (ptr fin : Nat) (err : Int) : ptr ≤ (slamDecode 4 m ptr fin err).2.1 := by
  simp only [slamDecode]
  split
  · exact Nat.le_refl _
  · exact Nat.le_add_right ..

theorem Packet.le_header (p : Packet) : headerOffset ≤ p.header.2.2.1 := by
  refine Nat.le_trans (Nat.le_trans ?_ (le_slamDecode ..)) (le_slamDecode ..)
  split
  · exact Nat.le_refl _
  · next data hskip =>
    simp only [slamSkip, Option.ite_none_left_eq_some, Option.some.injEq] at hskip
    omega

/-- How a packet with a new header is taken: its transfer agrees with the memory if there is room for
    the bitmap, and the accounts are right if it is refused. -/
def Entry.Ok (c : Client) (p : Packet) : Entry → Prop
  | .fault => True
  | .refused st _ => st.Ok
  | .entered st heap data => c.transfer p = some (st.transfer data) ∧
      (HasRoom c p (st.transfer data) → Tracks st heap.mem)

theorem reinit_ok (hok : c.st.Ok) (hnew : c.st.knows p = false) :
    (reinitSlamState c.st c.heap p).Ok c p := by
  have hT : p.header.1 < 2 ^ 29 := slamDecode_lt ..
  have hB : p.header.2.1 < 2 ^ 29 := slamDecode_lt ..
  have hdata := p.le_header
  unfold reinitSlamState
  generalize hhdr : p.header = hdr at hT hB hdata
  obtain ⟨T, B, data, err⟩ := hdr
  simp only at hT hB hdata ⊢
  by_cases herr : err ≠ 0
  · rw [if_pos herr]
    exact ⟨hok.received, hok.inside⟩
  · rw [if_neg herr]
    by_cases hzero : B = 0
    · rw [if_pos hzero]
      trivial
    · rw [if_neg hzero]
      have hpackets : wsub ((T + B) % 2 ^ 32) 1 / B = (T + B - 1) / B := by
        rw [wsub_of_le (by omega) (Nat.mod_lt _ (by decide)), Nat.mod_eq_of_lt (by omega)]
      rw [hpackets]
      split
      · exact ok_of_no_puts rfl rfl
      · generalize hst : SlamState.mk .. = st₁
        have hopen : Opened st₁ := by
          rw [← hst]
          exact ⟨Nat.pos_of_ne_zero hzero, hT, hB, rfl, rfl, rfl⟩
        cases halloc : allotTransfer st₁ c.heap with
        | fault => trivial
        | refused st' heap' =>
          obtain ⟨hputs, hrec⟩ := allotTransfer_refused halloc
          exact ok_of_no_puts (hputs.trans hopen.puts) (hrec.trans hopen.receivedPackets)
        | entered st' heap' data' =>
          obtain ⟨htransfer, htracks⟩ := allotTransfer_entered hopen halloc
          have hthis : c.transfer p = some (st'.transfer data') := by
            rw [htransfer, ← hst]
            simp only [Client.transfer, hnew, hhdr, SlamState.transfer]
            rw [if_neg Bool.false_ne_true, if_neg (by omega), Nat.add_sub_cancel' hdata]
          refine ⟨hthis, fun h => htracks ?_⟩
          rw [htransfer] at h
          rw [← hst] at h ⊢
          exact h hnew

/-! ## Data -/

/-- The number of a piece, and its place in the file. -/
structure Piece (st : SlamState) (n : Nat) : Prop where
  number_lt : n < st.totalPackets
  dataLen_eq : st.dataLen n = st.pieceLen n
  le_blockSize : st.pieceLen n ≤ st.blockSize
  inside : n * st.blockSize + st.pieceLen n ≤ st.totalBytes
  start_lt : n * st.blockSize < st.totalBytes

/-- The lengths that the client expects are those of the pieces, unless the last one is a whole
    block. -/
theorem piece_of_lt (hB : 0 < st.blockSize)
    (htotal : st.totalPackets = (st.totalBytes + st.blockSize - 1) / st.blockSize)
    (hlt : st.totalPackets < 2 ^ 32) (hn : n < st.totalPackets)
    (hlast : n + 1 = st.totalPackets → st.totalBytes % st.blockSize ≠ 0) : Piece st n := by
  have hsub : wsub st.totalPackets 1 = st.totalPackets - 1 := wsub_of_le (by omega) hlt
  have hstart := Slam.start_lt hB (htotal ▸ hn)
  refine ⟨hn, ?_, Nat.min_le_left .., ?_, hstart⟩
  · simp only [dataLen, pieceLen, hsub]
    by_cases hmid : n = st.totalPackets - 1
    · -- the last piece is what the division leaves over
      have hhigh : st.totalBytes + st.blockSize - 1 < (n + 1 + 1) * st.blockSize :=
        (Nat.div_lt_iff_lt_mul hB).mp (htotal ▸ by omega)
      rw [Nat.succ_mul, Nat.succ_mul] at hhigh
      obtain ⟨r, hr⟩ := Nat.exists_eq_add_of_lt hstart
      have hmod := hlast (by omega)
      have hsplit : st.totalBytes % st.blockSize = (r + 1) % st.blockSize := by
        rw [hr, Nat.add_assoc, Nat.mul_comm, Nat.mul_add_mod]
      have hne : r + 1 ≠ st.blockSize := by
        intro h
        rw [hsplit, h, Nat.mod_self] at hmod
        exact hmod rfl
      rw [if_neg (by simpa using hmid), hsplit, Nat.mod_eq_of_lt (by omega)]
      omega
    · have hnext : (n + 1 + 1) * st.blockSize ≤ st.totalBytes + st.blockSize - 1 :=
        (Nat.le_div_iff_mul_le hB).mp (htotal ▸ by omega)
      rw [Nat.succ_mul, Nat.succ_mul] at hnext
      rw [if_pos hmid]
      omega
  · simp only [pieceLen]
    omega

theorem Tracks.memcpy_bit (h : Tracks st mem) {mem' : Store} {off len : Nat}
    (hin : off + len ≤ st.totalBytes) (f : Nat → UInt8) {p : Nat} (hp : p < st.totalPackets) :
    bit (memcpy mem' ((st.image + off) % 2 ^ 32) f len) st.bitmap p = bit mem' st.bitmap p := by
  obtain ⟨d, hd, hlt, hbase⟩ := h.layout
  refine bit_congr ?_
  rw [memcpy, if_neg]
  rw [addr_bitmap hbase, above_offset st.image (by omega) (by omega)]
  omega

/-- Different pieces have different places. -/
theorem Tracks.place_inj (h : Tracks st mem) {p : Nat}
    (hn : n * st.blockSize < st.totalBytes) (hp : p * st.blockSize < st.totalBytes)
    (heq : (st.image + n * st.blockSize) % 2 ^ 32 = (st.image + p * st.blockSize) % 2 ^ 32) : n = p := by
  have hT := h.totalBytes_lt
  have hmul : n * st.blockSize = p * st.blockSize := by
    omega
  exact Nat.eq_of_mul_eq_mul_right h.blockSize_pos hmul

theorem Tracks.store (h : Tracks st mem) (hn : Piece st n)
    (hclear : bit mem st.bitmap n = false) (f : Nat → UInt8) :
    Tracks
      { st with
        receivedPackets := (st.receivedPackets + 1) % 2 ^ 32
        puts := ⟨n, (st.image + n * st.blockSize) % 2 ^ 32, st.pieceLen n⟩ :: st.puts }
      (memcpy (setBit mem st.bitmap n) ((st.image + n * st.blockSize) % 2 ^ 32) f
        (st.pieceLen n)) := by
  have htotal := h.totalPackets_lt
  have hnlt := hn.number_lt
  have hbits : ∀ p < st.totalPackets, bit
      (memcpy (setBit mem st.bitmap n) ((st.image + n * st.blockSize) % 2 ^ 32) f
        (st.pieceLen n)) st.bitmap p = bit (setBit mem st.bitmap n) st.bitmap p :=
    fun p hp => h.memcpy_bit hn.inside f hp
  refine { h with received := ?_, bits := fun p hp => ?_, inside := ?_ }
  · show (st.receivedPackets + 1) % 2 ^ 32 = count _ st.bitmap st.totalPackets
    rw [count_congr hbits, count_setBit hnlt (by omega) hclear, ← h.received]
    have hle : st.receivedPackets ≤ st.totalPackets := by
      rw [h.received, count]
      exact Nat.le_trans List.countP_le_length (by simp)
    omega
  · replace hp : p < st.totalPackets := hp
    rw [hbits p hp, bit_setBit (by omega) (by omega)]
    show _ = ((_ == _ && _ == _) || st.stored p)
    by_cases hpn : p = n
    · subst hpn
      simp [pieceLen]
    · rw [if_neg hpn, h.bits p hp]
      have hstart := Slam.start_lt h.blockSize_pos (h.totalPackets_eq ▸ hp)
      have hne : ((st.image + n * st.blockSize) % 2 ^ 32 ==
          (st.image + p * st.blockSize) % 2 ^ 32) = false :=
        beq_false_of_ne (fun heq => hpn (h.place_inj hn.start_lt hstart heq).symm)
      simp only [hne, Bool.false_and, Bool.false_or]
  · intro q hq
    rcases List.mem_cons.mp hq with rfl | hq
    · intro a ha hin
      have hplace := add_above ((st.image + n * st.blockSize) % 2 ^ 32) ha
      have hlen := hn.inside
      have hT := h.totalBytes_lt
      replace hin : above ((st.image + n * st.blockSize) % 2 ^ 32) a < st.pieceLen n := hin
      generalize above ((st.image + n * st.blockSize) % 2 ^ 32) a = k at hin hplace
      have hat : a = (st.image + (n * st.blockSize + k)) % 2 ^ 32 := by
        rw [← hplace, Nat.mod_add_mod, Nat.add_assoc]
      rw [hat, above_add (by omega)]
      show n * st.blockSize + k < st.totalBytes
      omega
    · exact h.inside q hq

theorem slamRecvData_tracks (h : Tracks st mem) (hnum : Numbered (st.transfer data) p) :
    Tracks (slamRecvData st mem p data).2.1 (slamRecvData st mem p data).2.2 := by
  unfold slamRecvData
  simp only [Numbered, SlamState.transfer] at hnum
  generalize slamDecode 4 p.bytes data p.packetlen 0 = dec at hnum
  obtain ⟨n, ptr, err⟩ := dec
  simp only at hnum ⊢
  split
  · exact h
  next hok =>
  obtain ⟨hne, hlast⟩ := hnum (by omega)
  have hpiece : Piece st n := piece_of_lt h.blockSize_pos h.totalPackets_eq
    (by have := h.totalPackets_lt; omega) (by omega) hlast
  split
  · exact h
  split
  · exact h
  split
  · exact h
  next hbit =>
  rw [hpiece.dataLen_eq, Nat.min_eq_left hpiece.le_blockSize]
  exact h.store hpiece (by simpa using hbit) (fun k => p.bytes (ptr + k))

/-! ## Whole runs -/

/-- While it waits, the client has received nothing or its transfer agrees with the memory. -/
structure Inv (c : Client) : Prop where
  accounted : Accounted c
  waiting : c.status = .waiting → Fresh c.st ∨ Tracks c.st c.heap.mem

theorem accounted_of_ok (h : c.st.Ok) (hstatus : ∀ image len, c.status ≠ .passed image len) : Accounted c :=
  ⟨h, fun image len hp => absurd hp (hstatus image len)⟩

theorem inv_stopped (h : c.st.Ok) (hstatus : c.status = .returned ∨ c.status = .fault) : Inv c := by
  refine ⟨accounted_of_ok h (fun image len => ?_), fun hw => ?_⟩ <;>
    rcases hstatus with hs | hs <;> simp_all

theorem inv_waiting (hstatus : c.status = .waiting) (h : Fresh c.st ∨ Tracks c.st c.heap.mem) : Inv c := by
  refine ⟨accounted_of_ok ?_ (fun image len => by rw [hstatus]; nofun), fun _ => h⟩
  rcases h with h | h
  · exact h.ok
  · exact h.ok

theorem inv_sendNack (hstatus : c.status = .waiting)
    (h : Fresh c.st ∨ Tracks c.st c.heap.mem) : Inv c.sendNack := by
  refine inv_waiting hstatus ?_
  rcases h with h | h
  · exact Or.inl h
  · right
    by_cases hzero : c.st.bitmap = 0
    · have hmem : c.sendNack.heap.mem = c.heap.mem := by
        simp [sendNack, slamSendNack, hzero]
      rw [hmem]
      exact h
    · have hmem : c.sendNack.heap.mem = invertTrailer c.heap.mem c.st.bitmap c.st.totalPackets := by
        simp [sendNack, slamSendNack, hzero]
      rw [hmem]
      have htotal := h.totalPackets_lt
      refine h.congr (fun p hp => ?_)
      exact (bit_invertTrailer _ _ (by omega) (by omega) (by omega)).trans (if_neg (by omega))

/-- When the count is full, every piece is in its place. -/
theorem inv_finish (h : Tracks c.st c.heap.mem)
    (hfull : c.st.receivedPackets = c.st.totalPackets) : Inv c.finish := by
  have hall := count_eq_of_all.mp (h.received.symm.trans hfull)
  refine ⟨⟨h.ok, fun image len hp => ?_⟩, nofun⟩
  simp only [finish, Status.passed.injEq] at hp
  exact ⟨hp.1.symm, hp.2.symm, fun p hlt => (h.bits p hlt).symm.trans (hall p hlt)⟩

/-- Before the first transfer every number is too large. -/
theorem Fresh.invalid (h : Fresh st) (hnum : Numbered (st.transfer data) p) (mem : Store) :
    slamRecvData st mem p data = (.invalid, st, mem) := by
  unfold slamRecvData
  simp only [Numbered, SlamState.transfer, h.totalPackets] at hnum
  generalize slamDecode 4 p.bytes data p.packetlen 0 = dec at hnum
  obtain ⟨n, ptr, err⟩ := dec
  simp only [h.totalPackets] at hnum ⊢
  rw [if_pos]
  by_contra hvalid
  omega

theorem inv_onData (hstatus : c.status = .waiting)
    (h : Fresh c.st ∨ Tracks c.st c.heap.mem) (hnum : Numbered (c.st.transfer data) p) :
    Inv (c.onData p data) := by
  rcases h with h | h
  · simp only [onData, h.invalid hnum, if_pos]
    exact inv_stopped h.ok (Or.inl rfl)
  · have htracks := slamRecvData_tracks h hnum
    unfold onData
    simp only at htracks ⊢
    split
    · exact inv_stopped htracks.ok (Or.inl rfl)
    · split
      · next hfull => exact inv_finish htracks hfull
      · exact inv_waiting hstatus (Or.inr htracks)

/-- A packet that is entered leaves a transfer that agrees with the memory, or the state before the
    first one. -/
theorem inv_onEntry (h : Inv c) (hstatus : c.status = .waiting)
    (hroom : ∀ t ∈ c.transfer p, HasRoom c p t) {k : Client → Nat → Client}
    (hk : ∀ st heap data, c.transfer p = some (st.transfer data) →
      Fresh st ∨ Tracks st heap.mem → Inv (k { c with st := st, heap := heap } data)) :
    Inv (c.onEntry p k) := by
  unfold onEntry enter
  by_cases hknows : c.st.knows p = true
  · rw [if_pos hknows]
    exact hk _ _ _ (by rw [Client.transfer, if_pos hknows]) (h.waiting hstatus)
  · rw [if_neg hknows]
    have hnew := reinit_ok h.accounted.ok (Bool.eq_false_iff.mpr hknows)
    cases hentry : reinitSlamState c.st c.heap p with
    | fault => exact inv_stopped h.accounted.ok (Or.inr rfl)
    | refused st heap =>
      rw [hentry] at hnew
      exact inv_stopped hnew (Or.inl rfl)
    | entered st heap data =>
      rw [hentry] at hnew
      exact hk st heap data hnew.1 (Or.inr (hnew.2 (hroom _ hnew.1)))

theorem inv_step {e : Event} (h : Inv c) (hproper : Proper c e) : Inv (c.step e) := by
  unfold step
  split
  case isFalse => exact h
  case isTrue hstatus =>
    have hw := h.waiting hstatus
    have hretry : Inv { c with retry := 0 } := inv_waiting hstatus hw
    cases e with
    | timeout =>
      simp only [turn]
      split
      · exact inv_stopped h.accounted.ok (Or.inl rfl)
      · exact inv_sendNack hstatus hw
    | request p =>
      simp only [turn]
      split
      · exact h
      · refine inv_onEntry hretry hstatus hproper (fun st heap data _ hst => ?_)
        exact inv_sendNack hstatus hst
    | data p =>
      simp only [turn]
      split
      · exact h
      · refine inv_onEntry hretry hstatus (fun t ht => (hproper t ht).1)
          (fun st heap data ht hst => ?_)
        exact inv_onData (c := { c with st := st, heap := heap, retry := 0 }) hstatus hst
          (hproper _ ht).2

/-- **The accounts of a transfer.** In every run whose packets all meet the condition, the count is
    that of the pieces stored, the stores are inside the image, and an image that is passed on is
    complete, after every step. -/
theorem slam_accounted (heap : Alloc.Heap) (totalBytes : Nat) (nack : Store) (es : List Event)
    (h : AllSteps Client.step Proper (Client.start heap totalBytes nack) es) :
    AllSteps Client.step (fun c e => Accounted (c.step e)) (Client.start heap totalBytes nack) es :=
  AllSteps.of_inv Inv (fun _ _ hinv hproper => ⟨(inv_step hinv hproper).accounted, inv_step hinv hproper⟩)
    (inv_waiting rfl (Or.inl ⟨rfl, rfl, rfl, rfl⟩)) h

/-- A frame with `payload` in its datagram, of at least the length that Ethernet asks for. -/
def frame (payload : List UInt8) : Packet :=
  { bytes := Store.splice (fun _ => 0) (udpOffset + 4)
      (beBytes (8 + payload.length) 2 ++ [0, 0] ++ payload),
    packetlen := max 60 (headerOffset + payload.length) }

/-- A client with two megabytes of heap. -/
def roomyClient : Client := Client.start ⟨0x400000, 0x200000, 0x400000, fun _ => 0⟩ 0 (fun _ => 0)

/-- A file of three bytes in two packets: the packet with number 2 is counted and stored behind the
    image. A file of two bytes in one packet: an empty packet completes it. -/
theorem packets_miscounted :
    (roomyClient.step (.data (frame [0x21, 0x23, 0x22, 0x22, 7, 7]))).st.receivedPackets = 1 ∧
      (roomyClient.step (.data (frame [0x21, 0x23, 0x22, 0x22, 7, 7]))).st.puts =
        [⟨2, 0x3fffe4 + 4, 2⟩] ∧
      ¬ Accounted (roomyClient.step (.data (frame [0x21, 0x23, 0x22, 0x22, 7, 7]))) ∧
      (roomyClient.step (.data (frame [0x21, 0x22, 0x22, 0x20]))).status = .passed 0x3fffe4 2 ∧
      ¬ Accounted (roomyClient.step (.data (frame [0x21, 0x22, 0x22, 0x20]))) := by
  have hputs : (roomyClient.step (.data (frame [0x21, 0x23, 0x22, 0x22, 7, 7]))).st.puts =
        [⟨2, 0x3fffe4 + 4, 2⟩] := by decide
  have hpassed : (roomyClient.step (.data (frame [0x21, 0x22, 0x22, 0x20]))).status =
      .passed 0x3fffe4 2 := by decide
  refine ⟨by decide, hputs, fun h => ?_, hpassed, fun h => ?_⟩
  · have hin := h.ok.inside ⟨2, 0x3fffe4 + 4, 2⟩ (by rw [hputs]; exact List.mem_singleton.mpr rfl)
      (0x3fffe4 + 4) (by decide) (by decide)
    exact absurd hin (by decide)
  · exact by cases ((h.passed _ _ hpassed).2.2 0 (by decide))

/-- The second packet, a timeout, the second again, then the first. -/
def twoPieces : List Event :=
  [.data (frame [0x21, 0x23, 0x22, 0x21, 9]), .timeout, .data (frame [0x21, 0x23, 0x22, 0x21, 9]),
    .data (frame [0x21, 0x23, 0x22, 0x20, 7, 8])]

theorem twoPieces_accounted :
    (twoPieces.foldl Client.step roomyClient).status = .passed 0x3fffe4 3 ∧
      AllSteps Client.step (fun c e => Accounted (c.step e)) roomyClient twoPieces :=
  ⟨by decide, slam_accounted _ _ _ twoPieces (by decide)⟩

end Slam
