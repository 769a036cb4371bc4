import Etherboot.Slam.Accounting

set_option autoImplicit false

/-! # Whole transfers

A client that is sent the packets of one file, in any order and any number of times. The server cuts
the file with `read`, the client foretells the length of every packet from the size in the header;
`slam_complete_iff` says when the two agree and the client ends with the file. What is lost on the way is
asked for and sent again, and then the file is complete (`round_completes`). -/

namespace Slam

open Memory Client Bitmap Store Source

/-- A frame whose datagram carries `payload`. Its other headers and what is behind the datagram are
    arbitrary. -/
structure Carries (p : Packet) (payload : List UInt8) : Prop where
  has : p.bytes.Has headerOffset payload
  udpLen : be16 p.bytes (udpOffset + 4) = 8 + payload.length
  le_packetlen : headerOffset + payload.length ≤ p.packetlen

/-- A packet of the file arrives, with its number. -/
structure Arrives (s : Source) (q : Nat × Packet) : Prop where
  number_lt : q.1 < s.packets
  carries : ∃ payload, s.dataPacket q.1 = some payload ∧ Carries q.2 payload

/-- The block size passes the test of `reinit_slam_state`. -/
def Source.Accepted (s : Source) : Prop :=
  20 + 8 + s.header.length + fieldBytes 4 s.packets + s.blockSize ≤ 1500
  deriving Decidable

/-- Bitmap and image fit in the heap, and above the first megabyte. -/
structure FitsHeap (heap : Alloc.Heap) (bitmapLen size : Nat) : Prop where
  ptr_lt : heap.heapPtr < 2 ^ 32
  bitmap : bitmapLen + 4 ≤ heap.heapPtr ∧ heap.heapTop ≤ heap.allotAddr bitmapLen
  image : size + 4 ≤ heap.allotAddr bitmapLen ∧
    heap.heapTop ≤ { heap with heapPtr := heap.allotAddr bitmapLen }.allotAddr size
  high : 1024 * 1024 ≤ { heap with heapPtr := heap.allotAddr bitmapLen }.allotAddr size + 4

/-- While the client waits, it takes the packet: its data are stored, or they are there already. -/
def Accepts (c : Client) : Event → Prop
  | .data p => c.status = .waiting → ∃ st heap data, enter c.st c.heap p = .entered st heap data ∧
      ((slamRecvData st heap.mem p data).1 = .duplicate ∨
        ∃ put, (slamRecvData st heap.mem p data).1 = .stored put)
  | _ => True

/-- The file has been passed on. -/
def Complete (s : Source) (c : Client) : Prop :=
  ∃ image, c.status = .passed image s.file.length ∧ c.heap.mem.slice image s.file.length = s.file

/-! ## The header -/

section Header

variable {s : Source} {p : Packet} {rest : List UInt8}

theorem Carries.fields (h : Carries p (s.header ++ rest)) :
    p.bytes.Has headerOffset (field s.long (s.transaction % 2 ^ (8 * s.long))) ∧
      p.bytes.Has (headerOffset + fieldBytes s.long (s.transaction % 2 ^ (8 * s.long)))
        (field s.long s.file.length) ∧
      p.bytes.Has (headerOffset + fieldBytes s.long (s.transaction % 2 ^ (8 * s.long)) +
        fieldBytes s.long s.file.length) (field s.long s.blockSize) := by
  have hhas := (has_append.mp h.has).1
  simp only [header, Slam.fields, List.flatMap_cons, List.flatMap_nil, List.append_nil] at hhas
  obtain ⟨h1, h23⟩ := has_append.mp hhas
  obtain ⟨h2, h3⟩ := has_append.mp h23
  simp only [length_field] at h2 h3
  exact ⟨h1, h2, h3⟩

theorem Source.length_header (s : Source) : s.header.length =
    fieldBytes s.long (s.transaction % 2 ^ (8 * s.long)) + fieldBytes s.long s.file.length +
      fieldBytes s.long s.blockSize := by
  simp [header, Slam.fields, Nat.add_assoc]

/-- The client reads the header as the server wrote it, if the size has at most 29 bits. -/
theorem Carries.header_eq (h : Carries p (s.header ++ rest)) (hrest : rest ≠ []) (hs : s.Sendable)
    (hsize : s.file.length < 2 ^ 29) (hblock : s.blockSize < 2 ^ 29) :
    p.header = (s.file.length, s.blockSize, headerOffset + s.header.length, 0) := by
  obtain ⟨h1, h2, h3⟩ := h.fields
  have hlen := h.le_packetlen
  have hpos := List.length_pos_iff.mpr hrest
  rw [List.length_append, s.length_header] at hlen
  have hb1 := (fieldBytes_le_iff s.transaction_lt 6).mpr hs.transaction
  have hb2 := (fieldBytes_le_four (hs.lt_pow hs.file_lt)).mpr hsize
  have hb3 := (fieldBytes_le_four (hs.lt_pow hs.blockSize_lt)).mpr hblock
  rw [s.length_header, Packet.header, slamSkip_field s.transaction_lt h1 (by omega) (by omega)]
  rw [slamDecode_field (hs.lt_pow hs.file_lt) h2 hb2 (by omega), if_neg (by omega)]
  rw [slamDecode_field (hs.lt_pow hs.blockSize_lt) h3 hb3 (by omega), if_neg (by omega)]
  simp only [Nat.add_assoc]

theorem slamDecode_err {m : Store} {ptr fin : Nat} {err : Int} (h : err ≠ 0) :
    (slamDecode 4 m ptr fin err).2.2 ≠ 0 := by
  have hminus : (-1 : Int) ≠ 0 := by decide
  simp only [slamDecode]
  split
  · exact hminus
  · split
    · exact hminus
    · split
      · exact hminus
      · exact h

theorem Carries.header_err (h : Carries p (s.header ++ rest)) (hs : s.Sendable)
    (hsize : 2 ^ 29 ≤ s.file.length) : p.header.2.2.2 ≠ 0 := by
  obtain ⟨h1, h2, -⟩ := h.fields
  have hlen := h.le_packetlen
  rw [List.length_append, s.length_header] at hlen
  have hb1 := (fieldBytes_le_iff s.transaction_lt 6).mpr hs.transaction
  have hb2 : ¬ fieldBytes s.long s.file.length ≤ 4 := fun hle =>
    absurd ((fieldBytes_le_four (hs.lt_pow hs.file_lt)).mp hle) (by omega)
  have hb7 := (fieldBytes_le_iff (hs.lt_pow hs.file_lt) 6).mpr (by have := hs.file_lt; omega)
  rw [Packet.header, slamSkip_field s.transaction_lt h1 (by omega) (by omega)]
  rw [slamDecode_long (hs.lt_pow hs.file_lt) h2 (by omega) (by omega)]
  exact slamDecode_err (show (-1 : Int) ≠ 0 by decide)

/-- No header looks like the empty one that the client starts with. -/
theorem Carries.not_knows (h : Carries p (s.header ++ rest)) (hs : s.Sendable) (totalBytes : Nat) :
    (initSlamState totalBytes).knows p = false := by
  obtain ⟨h1, -, -⟩ := h.fields
  have hb1 := (fieldBytes_le_iff s.transaction_lt 6).mpr hs.transaction
  have hpos := fieldBytes_pos s.long (s.transaction % 2 ^ (8 * s.long))
  have hfirst : p.bytes headerOffset ≠ 0 := by
    intro hzero
    have hn := (fieldLen_ofNat (Nat.lt_succ_of_le hb1) (fieldTop_lt s.transaction_lt)).1
    rw [← (has_cons.mp h1).1, hzero] at hn
    have : fieldLen 0 = 0 := by decide
    omega
  rw [SlamState.knows, beq_eq_false_iff_ne]
  intro heq
  have hhead := congrArg List.head? heq
  simp only [initSlamState, maxHdr, slice, List.range_succ_eq_map] at hhead
  exact hfirst (by simpa using hhead.symm)

end Header

/-! ## The transfer in memory -/

/-- The client is loading the file: the pieces whose bits are set are in their places. -/
structure Loading (s : Source) (st : SlamState) (mem : Store) : Prop where
  tracks : Tracks st mem
  hdrLen : st.hdrLen = s.header.length
  hdr : st.hdr.Has 0 s.header
  totalBytes : st.totalBytes = s.file.length
  blockSize : st.blockSize = s.blockSize
  high : st.image + s.file.length ≤ 2 ^ 32
  content : ∀ i (hi : i < s.file.length),
    Bitmap.bit mem st.bitmap (i / s.blockSize) = true → mem (st.image + i) = s.file.get ⟨i, hi⟩

variable {s : Source} {st : SlamState} {mem : Store} {heap : Alloc.Heap}

theorem Loading.totalPackets (h : Loading s st mem) : st.totalPackets = s.packets := by
  rw [h.tracks.totalPackets_eq, h.totalBytes, h.blockSize, packets]

theorem Loading.size_lt (h : Loading s st mem) : s.file.length < 2 ^ 29 :=
  h.totalBytes ▸ h.tracks.totalBytes_lt

theorem Loading.pieceLen_eq (h : Loading s st mem) (n : Nat) : st.pieceLen n = (s.piece n).length := by
  rw [SlamState.pieceLen, h.totalBytes, h.blockSize, s.length_piece]

/-- The number of the packet that a byte of the file is in. -/
theorem Source.div_lt_packets (s : Source) {i : Nat} (hpos : 0 < s.blockSize)
    (hi : i < s.file.length) : i / s.blockSize < s.packets := by
  show i / s.blockSize + 1 ≤ (s.file.length + s.blockSize - 1) / s.blockSize
  rw [← Nat.add_div_right i hpos]
  exact Nat.div_le_div_right (by omega)

theorem allotAddr_add_le (heap : Alloc.Heap) {size : Nat} (hptr : heap.heapPtr < 2 ^ 32)
    (hfit : size + 4 ≤ heap.heapPtr) : heap.allotAddr size + 4 + size ≤ heap.heapPtr := by
  have hle : heap.allotAddr size ≤ wsub heap.heapPtr (size + 4) := Alloc.andNot_le ..
  rw [wsub_of_le hfit hptr] at hle
  omega

theorem allotTransfer_fits (st : SlamState) (hbitmap : st.bitmap = 0)
    (h : FitsHeap heap ((st.totalPackets + 1 + 7) / 8) st.totalBytes) :
    ∃ bitmap image heap', allotTransfer st heap =
        .entered { st with bitmap := bitmap, image := image } heap' (headerOffset + st.hdrLen) ∧
      image + st.totalBytes ≤ 2 ^ 32 ∧
      ((if st.bitmap ≠ 0 then heap.forget (some st.bitmap) else heap).allot
        ((st.totalPackets + 1 + 7) / 8)).1.isSome = true := by
  have hb := heap.allotAddr_lt ((st.totalPackets + 1 + 7) / 8)
  have himage := allotAddr_add_le
    { heap with heapPtr := heap.allotAddr ((st.totalPackets + 1 + 7) / 8) } hb h.image.1
  simp only [allotTransfer, hbitmap, ne_eq, not_true_eq_false, if_false]
  rw [Alloc.Heap.allot_eq_some h.bitmap.2]
  simp only [Option.getD_some, Option.isSome_some, and_true]
  rw [Alloc.Heap.allot_eq_some h.image.2]
  exact ⟨_, _, _, if_neg (Nat.not_lt.mpr h.high), Nat.le_trans himage (Nat.le_of_lt hb)⟩

theorem enter_first (hs : s.Sendable) (hsize : s.file.length < 2 ^ 29)
    (haccept : s.Accepted)
    (hheap : FitsHeap heap ((s.packets + 1 + 7) / 8) s.file.length) {p : Packet} {rest : List UInt8}
    (hp : Carries p (s.header ++ rest)) (hrest : rest ≠ []) (totalBytes : Nat) :
    ∃ st heap', enter (initSlamState totalBytes) heap p =
        .entered st heap' (headerOffset + s.header.length) ∧ Loading s st heap'.mem := by
  have hblock : s.blockSize < 2 ^ 29 := by unfold Accepted at haccept; omega
  have hpos := hs.blockSize_pos
  have hpackets : wsub ((s.file.length + s.blockSize) % 2 ^ 32) 1 / s.blockSize = s.packets := by
    rw [wsub_of_le (by omega) (Nat.mod_lt _ (by decide)), Nat.mod_eq_of_lt (by omega), packets]
  have hlt : s.packets < 2 ^ 30 := packets_lt hsize hblock
  have hnum : slamEncode 4 (initSlamState totalBytes).hdr 0 maxHdr s.packets =
      some (0 + fieldBytes 4 s.packets, splice (initSlamState totalBytes).hdr 0
        (field 4 s.packets)) := by
    have hle := valueBytes_le 4 s.packets
    have hlen := @fieldBytes_lt_eight s.packets
    rw [slamEncode_eq (by omega), if_pos (by unfold maxHdr; omega)]
  have hhdr : p.bytes.slice headerOffset s.header.length = s.header :=
    (has_append.mp hp.has).1
  rw [enter, hp.not_knows hs, if_neg Bool.false_ne_true, reinitSlamState,
    hp.header_eq hrest hs hsize hblock]
  simp only [ne_eq, not_true_eq_false, if_false, if_neg (Nat.ne_of_gt hpos), hpackets, hnum,
    Option.getD_some, Nat.add_sub_cancel_left, hhdr, Nat.zero_add]
  unfold Accepted at haccept
  rw [wsub_of_le (by omega) (by decide), if_neg (by omega)]
  generalize hst : SlamState.mk .. = st₁
  have hopen : Opened st₁ := by
    rw [← hst]
    exact ⟨hpos, hsize, hblock, rfl, rfl, rfl⟩
  obtain ⟨bitmap, image, heap', hentry, hhigh, hroom⟩ :=
    allotTransfer_fits st₁ (by rw [← hst]; rfl) (by rw [← hst]; exact hheap)
  have htracks := (allotTransfer_entered hopen hentry).2 hroom
  refine ⟨_, heap', hentry.trans (by rw [← hst]), ?_⟩
  subst hst
  refine ⟨htracks, rfl, slice_splice_self .., rfl, rfl, hhigh, fun i hi hbit => ?_⟩
  -- no bit is set yet
  rw [htracks.bits _ (s.div_lt_packets hpos hi), stored_eq_false rfl] at hbit
  cases hbit

/-- The payload of a packet of the file. -/
def Source.payload (s : Source) (n : Nat) : List UInt8 := s.header ++ (field s.long n ++ s.piece n)

theorem Source.length_payload (s : Source) (n : Nat) :
    (s.payload n).length = s.header.length + (fieldBytes s.long n + (s.piece n).length) := by
  rw [payload, List.length_append, List.length_append, length_field]

theorem Carries.number {p : Packet} {n : Nat} (h : Carries p (s.payload n)) :
    p.bytes.Has (headerOffset + s.header.length) (field s.long n) ∧
      p.bytes.Has (headerOffset + s.header.length + fieldBytes s.long n) (s.piece n) := by
  have hhas := (has_append.mp h.has).2
  have hparts := has_append.mp hhas
  rwa [length_field] at hparts

section Loading

variable {s : Source} {st : SlamState} {mem : Store} {p : Packet} {n : Nat}

theorem Loading.knows (h : Loading s st mem) {rest : List UInt8} (hp : Carries p (s.header ++ rest)) :
    st.knows p = true := by
  have hhdr : st.hdr.slice 0 s.header.length = s.header := h.hdr
  have hbytes : p.bytes.slice headerOffset s.header.length = s.header :=
    (has_append.mp hp.has).1
  rw [SlamState.knows, h.hdrLen, hhdr, hbytes]
  exact beq_self_eq_true _

theorem Carries.decode_number (hp : Carries p (s.payload n)) (hs : s.Sendable)
    (hsize : s.file.length < 2 ^ 29) (hn : n < s.packets) :
    slamDecode 4 p.bytes (headerOffset + s.header.length) p.packetlen 0 =
      (n, headerOffset + s.header.length + fieldBytes s.long n, 0) := by
  have hstart := start_lt hs.blockSize_pos hn
  have hle : n ≤ n * s.blockSize := Nat.le_mul_of_pos_right n hs.blockSize_pos
  have hb := (fieldBytes_le_four (hs.lt_pow (show n < 2 ^ 32 by omega))).mpr (by omega)
  have hlen := hp.le_packetlen
  have hpos := hs.blockSize_pos
  rw [s.length_payload, s.length_piece] at hlen
  rw [slamDecode_field (hs.lt_pow (by omega)) hp.number.1 hb (by omega), if_neg (by omega)]

theorem Loading.piece (h : Loading s st mem)
    (hmod : n + 1 = s.packets → s.file.length % s.blockSize ≠ 0) (hn : n < s.packets) : Piece st n := by
  refine piece_of_lt h.tracks.blockSize_pos h.tracks.totalPackets_eq ?_ (h.totalPackets ▸ hn) ?_
  · have := h.tracks.totalPackets_lt
    omega
  · rw [h.totalPackets, h.totalBytes, h.blockSize]
    exact hmod

/-- What becomes of a packet whose length is the one that the client expects. -/
theorem Loading.recv_eq (h : Loading s st mem) (hs : s.Sendable)
    (hmod : n + 1 = s.packets → s.file.length % s.blockSize ≠ 0) (hn : n < s.packets)
    (hp : Carries p (s.payload n)) :
    slamRecvData st mem p (headerOffset + st.hdrLen) = if bit mem st.bitmap n then (.duplicate, st, mem)
      else
        (.stored ⟨n, (st.image + n * st.blockSize) % 2 ^ 32, st.pieceLen n⟩,
          { st with
            receivedPackets := (st.receivedPackets + 1) % 2 ^ 32,
            puts := ⟨n, (st.image + n * st.blockSize) % 2 ^ 32, st.pieceLen n⟩ :: st.puts },
          memcpy (setBit mem st.bitmap n) ((st.image + n * st.blockSize) % 2 ^ 32)
            (fun k => p.bytes (headerOffset + s.header.length + fieldBytes s.long n + k))
            (st.pieceLen n)) := by
  have hsize := h.size_lt
  have hpiece := h.piece hmod hn
  have hlen := h.pieceLen_eq n
  have hudp := hp.udpLen
  have hframe := hp.le_packetlen
  rw [s.length_payload, ← hlen] at hudp hframe
  rw [slamRecvData, h.hdrLen, hp.decode_number hs hsize hn]
  simp only [h.totalPackets, hpiece.dataLen_eq, Nat.min_eq_left hpiece.le_blockSize]
  rw [if_neg (by omega), if_neg (by unfold headerOffset udpOffset at *; omega), if_neg (by omega)]

theorem Tracks.setBit_image (h : Tracks st mem) (hn : n < st.totalPackets) {i : Nat}
    (hi : i < st.totalBytes) :
    setBit mem st.bitmap n (st.image + i) = mem (st.image + i) := by
  obtain ⟨d, hd, hd', hbase⟩ := h.layout
  refine set_of_ne _ _ ?_
  rw [addr_bitmap hbase]
  omega

/-- A piece is put in its place: the others stay as they are. -/
theorem Loading.store (h : Loading s st mem) (hn : Piece st n) {f : Nat → UInt8}
    (hclear : Bitmap.bit mem st.bitmap n = false)
    (hf : ∀ k (hk : k < (s.piece n).length), f k = (s.piece n).get ⟨k, hk⟩) :
    Loading s
      { st with
        receivedPackets := (st.receivedPackets + 1) % 2 ^ 32
        puts := ⟨n, (st.image + n * st.blockSize) % 2 ^ 32, st.pieceLen n⟩ :: st.puts }
      (memcpy (Bitmap.setBit mem st.bitmap n) ((st.image + n * st.blockSize) % 2 ^ 32) f
        (st.pieceLen n)) := by
  have hpos : 0 < s.blockSize := h.blockSize ▸ h.tracks.blockSize_pos
  have htotal := h.tracks.totalPackets_lt
  have hinside := hn.inside
  have hlen := h.pieceLen_eq n
  rw [h.totalBytes, h.blockSize] at hinside
  refine { h with tracks := h.tracks.store hn hclear f, content := fun i hi hbit => ?_ }
  have hhigh := h.high
  have hplace : st.image + i = (st.image + i) % 2 ^ 32 := (Nat.mod_eq_of_lt (by omega)).symm
  have hi' : i / s.blockSize < st.totalPackets := h.totalPackets ▸ s.div_lt_packets hpos hi
  rw [memcpy, h.blockSize]
  by_cases hin : i / s.blockSize = n
  · -- a byte of the piece
    have hdiv := Nat.div_add_mod i s.blockSize
    rw [hin, Nat.mul_comm] at hdiv
    have hmod := Nat.mod_lt i hpos
    have habove : above ((st.image + n * s.blockSize) % 2 ^ 32) (st.image + i) = i % s.blockSize := by
      rw [hplace, above_offset st.image (by omega) (by omega)]
      omega
    have hk : i % s.blockSize < (s.piece n).length := by
      rw [s.length_piece]
      omega
    rw [habove, if_pos (hlen ▸ hk), hf _ hk]
    simp only [Source.piece, List.get_eq_getElem, List.getElem_take, List.getElem_drop, hdiv]
  · -- the piece is elsewhere
    have hout : ¬ above ((st.image + n * s.blockSize) % 2 ^ 32) (st.image + i) < st.pieceLen n := by
      have hle := hn.le_blockSize
      rw [h.blockSize] at hle
      rcases Nat.lt_or_gt_of_ne hin with hlow | hhi
      · have hbelow := (Nat.div_lt_iff_lt_mul hpos).mp hlow
        unfold above wsub
        omega
      · have hbehind := (Nat.le_div_iff_mul_le hpos).mp hhi
        rw [Nat.succ_mul] at hbehind
        rw [hplace, above_offset st.image (by omega) (by omega)]
        omega
    rw [if_neg hout, h.tracks.setBit_image hn.number_lt (h.totalBytes ▸ hi)]
    refine h.content i hi ?_
    rw [← hbit]
    rw [h.tracks.memcpy_bit hn.inside f hi', Bitmap.bit_setBit (by have := hn.number_lt; omega)
      (by omega), if_neg hin]

theorem Loading.recv (h : Loading s st mem) (hs : s.Sendable)
    (hmod : s.file.length % s.blockSize ≠ 0) (hn : n < s.packets) (hp : Carries p (s.payload n)) :
    ∃ received st' mem', slamRecvData st mem p (headerOffset + st.hdrLen) = (received, st', mem') ∧
      (received = .duplicate ∨ ∃ put, received = .stored put) ∧ Loading s st' mem' ∧
      bit mem' st'.bitmap n = true ∧
      ∀ m < s.packets, bit mem st.bitmap m = true → bit mem' st'.bitmap m = true := by
  have hpiece : Piece st n := h.piece (fun _ => hmod) hn
  rw [h.recv_eq hs (fun _ => hmod) hn hp]
  cases hbit : bit mem st.bitmap n with
  | true => exact ⟨_, _, _, rfl, Or.inl rfl, h, hbit, fun m _ hm => hm⟩
  | false =>
    have hbits : ∀ m < s.packets, bit (memcpy (setBit mem st.bitmap n)
        ((st.image + n * st.blockSize) % 2 ^ 32)
        (fun k => p.bytes (headerOffset + s.header.length + fieldBytes s.long n + k))
        (st.pieceLen n)) st.bitmap m = if m = n then true else bit mem st.bitmap m := by
      intro m hm
      have htotal := h.tracks.totalPackets_lt
      rw [← h.totalPackets] at hm
      have hn' := hpiece.number_lt
      rw [h.tracks.memcpy_bit hpiece.inside _ hm, bit_setBit (by omega) (by omega)]
    refine ⟨_, _, _, rfl, Or.inr ⟨_, rfl⟩, h.store hpiece hbit (fun k hk => ?_), ?_, ?_⟩
    · exact hp.number.2.get hk
    · exact (hbits n hn).trans (if_pos rfl)
    · intro m hm hset
      refine (hbits m hm).trans ?_
      rw [hset, ite_self]

end Loading

variable {s : Source} {c : Client}

theorem Loading.slice_eq {st : SlamState} {mem : Store} (h : Loading s st mem)
    (hfull : st.receivedPackets = st.totalPackets) :
    mem.slice st.image s.file.length = s.file := by
  have hall := count_eq_of_all.mp (h.tracks.received.symm.trans hfull)
  have hpos : 0 < s.blockSize := h.blockSize ▸ h.tracks.blockSize_pos
  refine List.ext_getElem (length_slice ..) (fun i _ hi => ?_)
  have hbit := hall (i / s.blockSize) (h.totalPackets ▸ s.div_lt_packets hpos hi)
  simpa [slice] using h.content i hi hbit

/-! ## Runs -/

/-- How far the client is when the packets with the numbers `seen` have arrived. -/
inductive Progress (s : Source) (c₀ : Client) : Client → List Nat → Prop where
  | start : Progress s c₀ c₀ []
  | loading {c : Client} {seen : List Nat} (status : c.status = .waiting)
      (loading : Loading s c.st c.heap.mem) (missing : c.st.receivedPackets ≠ c.st.totalPackets)
      (bits : ∀ n ∈ seen, Bitmap.bit c.heap.mem c.st.bitmap n = true) : Progress s c₀ c seen
  | complete {c : Client} {seen : List Nat} (complete : Complete s c) : Progress s c₀ c seen

theorem Progress.complete_of_all (hs : s.Sendable) {c₀ : Client} {seen : List Nat}
    (h : Progress s c₀ c seen) (hall : ∀ n < s.packets, n ∈ seen) : Complete s c := by
  cases h with
  | start =>
    have hpos : 0 < s.packets := Nat.lt_of_le_of_lt (Nat.zero_le _)
      (s.div_lt_packets hs.blockSize_pos hs.file_pos)
    cases hall 0 hpos
  | loading _ hload hmissing hbits =>
    refine absurd ?_ hmissing
    rw [hload.tracks.received]
    exact count_eq_of_all.mpr (fun n hn => hbits n (hall n (hload.totalPackets ▸ hn)))
  | complete hcomplete => exact hcomplete

theorem onData_progress (hs : s.Sendable) (hmod : s.file.length % s.blockSize ≠ 0)
    (c₀ : Client) {seen : List Nat} (hstatus : c.status = .waiting)
    (h : Loading s c.st c.heap.mem) (hseen : ∀ n ∈ seen, n < s.packets)
    (hbits : ∀ n ∈ seen, bit c.heap.mem c.st.bitmap n = true) {p : Packet} {n : Nat}
    (hn : n < s.packets) (hp : Carries p (s.payload n)) :
    ((slamRecvData c.st c.heap.mem p (headerOffset + c.st.hdrLen)).1 = .duplicate ∨
      ∃ put, (slamRecvData c.st c.heap.mem p (headerOffset + c.st.hdrLen)).1 = .stored put) ∧
      Progress s c₀ (c.onData p (headerOffset + c.st.hdrLen)) (n :: seen) := by
  obtain ⟨received, st, mem, hrecv, htaken, hload, hbit, hkeep⟩ := h.recv hs hmod hn hp
  rw [hrecv]
  refine ⟨htaken, ?_⟩
  have hvalid : received ≠ .invalid := by
    rcases htaken with rfl | ⟨put, rfl⟩ <;> nofun
  simp only [onData, hrecv, if_neg hvalid]
  split
  · next hfull =>
    refine .complete ⟨st.image, ?_, hload.slice_eq hfull⟩
    simp only [finish, hload.totalBytes]
  · next hmissing =>
    refine .loading hstatus hload hmissing (fun m hm => ?_)
    rcases List.mem_cons.mp hm with rfl | hm
    · exact hbit
    · exact hkeep m (hseen m hm) (hbits m hm)

theorem Arrives.payload (hs : s.Sendable) {q : Nat × Packet} (h : Arrives s q) :
    Carries q.2 (s.payload q.1) := by
  obtain ⟨payload, hsent, hcarries⟩ := h.carries
  rw [hs.dataPacket_eq h.number_lt, Option.some.injEq, List.append_assoc] at hsent
  rw [Source.payload, hsent]
  exact hcarries

theorem Client.step_data {p : Packet} {st : SlamState} {heap : Alloc.Heap} {data : Nat}
    (hstatus : c.status = .waiting) (hlen : headerOffset + 3 + 1 ≤ p.packetlen)
    (hentry : enter c.st c.heap p = .entered st heap data) :
    c.step (.data p) = { c with st := st, heap := heap, retry := 0 }.onData p data := by
  rw [step, if_pos hstatus, turn, if_neg (by omega), onEntry]
  simp only [hentry]

section Runs

variable {s : Source} (hs : s.Sendable) (hsize : s.file.length < 2 ^ 29)
  (hmod : s.file.length % s.blockSize ≠ 0) (haccept : s.Accepted) {heap : Alloc.Heap}
  (hheap : FitsHeap heap ((s.packets + 1 + 7) / 8) s.file.length) {totalBytes : Nat} {nack : Store}

include hs hsize hmod haccept hheap

theorem progress_step {c : Client} {seen : List Nat}
    (h : Progress s (start heap totalBytes nack) c seen) (hseen : ∀ n ∈ seen, n < s.packets)
    {q : Nat × Packet} (hq : Arrives s q) :
    Accepts c (.data q.2) ∧ Progress s (start heap totalBytes nack) (c.step (.data q.2)) (q.1 :: seen) := by
  have hp := hq.payload hs
  have hlen : headerOffset + 3 + 1 ≤ q.2.packetlen := by
    have hle := hp.le_packetlen
    have h1 := fieldBytes_pos s.long (s.transaction % 2 ^ (8 * s.long))
    have h2 := fieldBytes_pos s.long s.file.length
    have h3 := fieldBytes_pos s.long s.blockSize
    have h4 := fieldBytes_pos s.long q.1
    rw [s.length_payload, s.length_header] at hle
    omega
  -- once the packet is entered, it is the same for the first packet and the later ones
  have hentered : ∀ {c : Client} {seen : List Nat} {st : SlamState} {heap' : Alloc.Heap},
      c.status = .waiting → (∀ n ∈ seen, n < s.packets) →
      enter c.st c.heap q.2 = .entered st heap' (headerOffset + st.hdrLen) → Loading s st heap'.mem →
      (∀ n ∈ seen, bit heap'.mem st.bitmap n = true) →
      Accepts c (.data q.2) ∧
        Progress s (start heap totalBytes nack) (c.step (.data q.2)) (q.1 :: seen) := by
    intro c seen st heap' hstatus hseen hentry hload hbits
    obtain ⟨htaken, hprogress⟩ := onData_progress hs hmod (start heap totalBytes nack)
      (c := { c with st := st, heap := heap', retry := 0 }) hstatus hload hseen hbits hq.number_lt hp
    rw [step_data hstatus hlen hentry]
    exact ⟨fun _ => ⟨st, heap', _, hentry, htaken⟩, hprogress⟩
  cases h with
  | start =>
    obtain ⟨st, heap', hentry, hload⟩ := enter_first hs hsize haccept hheap hp
      (by simp [← List.length_eq_zero_iff, Nat.ne_of_gt (fieldBytes_pos s.long q.1)]) totalBytes
    rw [← hload.hdrLen] at hentry
    exact hentered rfl hseen hentry hload nofun
  | loading hstatus hload _ hbits =>
    have hentry : enter c.st c.heap q.2 = .entered c.st c.heap (headerOffset + c.st.hdrLen) := by
      rw [enter, if_pos (hload.knows hp)]
    exact hentered hstatus hseen hentry hload hbits
  | complete hcomplete =>
    obtain ⟨image, hstatus, hslice⟩ := hcomplete
    have hdone : c.status ≠ .waiting := by rw [hstatus]; nofun
    rw [step, if_neg hdone]
    exact ⟨fun hw => absurd hw hdone, .complete ⟨image, hstatus, hslice⟩⟩

theorem progress_run {ps : List (Nat × Packet)} (hps : ∀ q ∈ ps, Arrives s q) {c : Client}
    {seen : List Nat} (h : Progress s (start heap totalBytes nack) c seen)
    (hseen : ∀ n ∈ seen, n < s.packets) :
    AllSteps step Accepts c (ps.map (fun q => .data q.2)) ∧ Progress s (start heap totalBytes nack)
        ((ps.map (fun q => .data q.2)).foldl step c) ((ps.map Prod.fst).reverse ++ seen) := by
  induction ps generalizing c seen with
  | nil => exact ⟨trivial, h⟩
  | cons q ps ih =>
    have hq := hps q (by simp)
    obtain ⟨haccepts, hnext⟩ := progress_step hs hsize hmod haccept hheap h hseen hq
    have hseen' : ∀ n ∈ q.1 :: seen, n < s.packets := by
      intro n hn
      rcases List.mem_cons.mp hn with rfl | hn
      · exact hq.number_lt
      · exact hseen n hn
    obtain ⟨hall, hprogress⟩ := ih (fun q' hq' => hps q' (by simp [hq'])) hnext hseen'
    refine ⟨⟨haccepts, hall⟩, ?_⟩
    rw [List.map_cons, List.map_cons, List.reverse_cons, List.append_assoc]
    exact hprogress

end Runs

/-! ## When the two sides disagree -/

theorem frame_carries {payload : List UInt8} (h : 8 + payload.length < 2 ^ 16) :
    Carries (frame payload) payload := by
  have hhas : (frame payload).bytes.Has (udpOffset + 4)
      (beBytes (8 + payload.length) 2 ++ [0, 0] ++ payload) := slice_splice_self ..
  obtain ⟨hlen, hpayload⟩ := has_append.mp hhas
  refine ⟨hpayload, ?_, Nat.le_max_right ..⟩
  obtain ⟨hhigh, hlow⟩ := has_cons.mp (has_append.mp hlen).1
  rw [be16, hhigh, (has_cons.mp hlow).1, UInt8.toNat_ofNat', UInt8.toNat_ofNat',
    Nat.pow_one, Nat.pow_zero, Nat.div_one]
  omega

theorem arrives_frame {s : Source} (hs : s.Sendable) (haccept : s.Accepted) {n : Nat}
    (hn : n < s.packets) : Arrives s (n, frame (s.payload n)) := by
  refine ⟨hn, s.payload n, ?_, frame_carries ?_⟩
  · rw [hs.dataPacket_eq hn, List.append_assoc, payload]
  · have hlen := s.length_piece n
    have hstart := start_lt hs.blockSize_pos hn
    have hle : n ≤ n * s.blockSize := Nat.le_mul_of_pos_right n hs.blockSize_pos
    have hfile := hs.file_lt
    have hb := (fieldBytes_le_iff (hs.lt_pow (show n < 2 ^ 32 by omega)) 6).mpr (by omega)
    unfold Accepted at haccept
    rw [s.length_payload]
    omega

/-- The client does not take the last packet of a file that is a whole number of blocks. -/
theorem Loading.last_dropped {s : Source} {st : SlamState} {mem : Store} (h : Loading s st mem)
    (hs : s.Sendable) (hmod : s.file.length % s.blockSize = 0) {n : Nat} (hn : n + 1 = s.packets)
    {p : Packet} (hp : Carries p (s.payload n)) :
    (slamRecvData st mem p (headerOffset + st.hdrLen)).1 = .dropped := by
  have hsize := h.size_lt
  have hlt := h.tracks.totalPackets_lt
  have hstart := start_lt hs.blockSize_pos (show n < s.packets by omega)
  have hudp := hp.udpLen
  have hpos := hs.blockSize_pos
  have hdata : st.dataLen n = 0 := by
    rw [SlamState.dataLen, wsub_of_le (by rw [h.totalPackets]; omega) (by omega), h.totalPackets,
      if_neg (by omega), h.totalBytes, h.blockSize, hmod]
  rw [s.length_payload, s.length_piece] at hudp
  rw [slamRecvData, h.hdrLen, hp.decode_number hs hsize (by omega)]
  simp only [h.totalPackets, hdata]
  rw [if_neg (by omega), if_pos (by unfold headerOffset udpOffset at *; omega)]

/-- **Server and client agree on every packet.** Every file that fits is received, in whatever order
    its packets arrive, if and only if its size has at most 29 bits and is not a whole number of
    blocks. -/
theorem slam_complete_iff (s : Source) (hlong : 4 ≤ s.long)
    (htrans : s.transaction % 2 ^ (8 * s.long) < 2 ^ 53) (hfile : 1 ≤ s.file.length)
    (hblock : 1 ≤ s.blockSize) (haccept : s.Accepted) (heap : Alloc.Heap)
    (hheap : FitsHeap heap ((s.packets + 1 + 7) / 8) s.file.length) (totalBytes : Nat) (nack : Store) :
    (∀ ps : List (Nat × Packet), (∀ q ∈ ps, Arrives s q) →
      AllSteps Client.step Accepts (Client.start heap totalBytes nack) (ps.map (fun q => .data q.2)) ∧
      ((∀ n < s.packets, n ∈ ps.map Prod.fst) →
        Complete s ((ps.map (fun q => .data q.2)).foldl Client.step
          (Client.start heap totalBytes nack)))) ↔
      s.file.length < 2 ^ 29 ∧ s.file.length % s.blockSize ≠ 0 := by
  have hs : s.Sendable := by
    refine ⟨hlong, htrans, hblock, ?_, hfile, ?_⟩
    · unfold Accepted at haccept
      omega
    · have hroom := hheap.image.1
      have hlt := heap.allotAddr_lt ((s.packets + 1 + 7) / 8)
      omega
  have hpackets : 0 < s.packets := Nat.lt_of_le_of_lt (Nat.zero_le _)
    (s.div_lt_packets hblock hs.file_pos)
  constructor
  · intro h
    -- what is taken of a single packet
    have hone : ∀ n < s.packets, Accepts (start heap totalBytes nack)
        (.data (frame (s.payload n))) := fun n hn =>
      (h [(n, frame (s.payload n))] (by simpa using arrives_frame hs haccept hn)).1.1
    have hsize : s.file.length < 2 ^ 29 := by
      by_contra hlarge
      have hp := (arrives_frame hs haccept hpackets).payload hs
      obtain ⟨st, heap', data, hentry, -⟩ := hone 0 hpackets rfl
      have herr := hp.header_err hs (by omega)
      rw [start, enter, hp.not_knows hs, if_neg Bool.false_ne_true, reinitSlamState] at hentry
      simp only at herr hentry
      rw [if_pos herr] at hentry
      cases hentry
    refine ⟨hsize, fun hmod => ?_⟩
    have hlast : s.packets - 1 < s.packets := by omega
    have hp := (arrives_frame hs haccept hlast).payload hs
    obtain ⟨st, heap', data, hentry, htaken⟩ := hone _ hlast rfl
    obtain ⟨st', heap'', hentry', hload⟩ := enter_first hs hsize haccept hheap hp
      (by simp [← List.length_eq_zero_iff, Nat.ne_of_gt (fieldBytes_pos s.long (s.packets - 1))])
      totalBytes
    rw [← hload.hdrLen] at hentry'
    obtain ⟨rfl, rfl, rfl⟩ := Entry.entered.inj (hentry.symm.trans hentry')
    rw [hload.last_dropped hs hmod (by omega) hp] at htaken
    rcases htaken with hdup | ⟨put, hput⟩
    · cases hdup
    · cases hput
  · rintro ⟨hsize, hmod⟩ ps hps
    have hstart : Progress s (start heap totalBytes nack) (start heap totalBytes nack)
      [] := .start
    obtain ⟨hall, hprogress⟩ := progress_run hs hsize hmod haccept hheap hps hstart nofun
    exact ⟨hall, fun hseen => hprogress.complete_of_all hs (fun n hn => by simpa using hseen n hn)⟩

/-- A file of three bytes in blocks of two. -/
def threeBytes : Source := { long := 4, transaction := 1, blockSize := 2, file := [7, 8, 9] }

/-- A file of two bytes in blocks of two. -/
def twoBytes : Source := { long := 4, transaction := 1, blockSize := 2, file := [7, 8] }

/-- The only packet of a file of one block is dropped, and the client waits on. -/
theorem whole_block_dropped :
    twoBytes.packets = 1 ∧ twoBytes.dataPacket 0 = some [0x21, 0x22, 0x22, 0x20, 7, 8] ∧
      (roomyClient.step (.data (frame [0x21, 0x22, 0x22, 0x20, 7, 8]))).status = .waiting ∧
      (roomyClient.step (.data (frame [0x21, 0x22, 0x22, 0x20, 7, 8]))).st.totalPackets = 1 ∧
      (roomyClient.step (.data (frame [0x21, 0x22, 0x22, 0x20, 7, 8]))).st.puts = [] ∧
      (slamRecvData (roomyClient.step (.data (frame [0x21, 0x22, 0x22, 0x20, 7, 8]))).st
        (roomyClient.step (.data (frame [0x21, 0x22, 0x22, 0x20, 7, 8]))).heap.mem
        (frame [0x21, 0x22, 0x22, 0x20, 7, 8]) (headerOffset + 3)).1 = .dropped := by
  decide

theorem threeBytes_complete :
    threeBytes.packets = 2 ∧ Complete threeBytes
      ([.data (frame (threeBytes.payload 1)), .data (frame (threeBytes.payload 1)),
        .data (frame (threeBytes.payload 0))].foldl Client.step roomyClient) := by
  refine ⟨by decide, ?_⟩
  have hs : threeBytes.Sendable := ⟨by decide, by decide, by decide, by decide, by decide, by decide⟩
  have hframe : ∀ n < 2, Arrives threeBytes (n, frame (threeBytes.payload n)) := fun n hn =>
    arrives_frame hs (by decide) hn
  refine ((slam_complete_iff threeBytes (by decide) (by decide) (by decide) (by decide) (by decide)
    ⟨0x400000, 0x200000, 0x400000, fun _ => 0⟩
    ⟨by decide, by decide, by decide, by decide⟩ 0 (fun _ => 0)).mpr (by decide)
    [(1, frame (threeBytes.payload 1)), (1, frame (threeBytes.payload 1)),
      (0, frame (threeBytes.payload 0))] ?_).2 (by decide)
  simpa using ⟨hframe 1 (by decide), hframe 0 (by decide)⟩

/-! ## Recovery -/

open RunLength

variable {s : Source} {c : Client}

/-- A client that waits with a bitmap is in the midst of the file. -/
theorem Progress.loading_of_waiting {c₀ : Client} {seen : List Nat} (h : Progress s c₀ c seen)
    (hstart : c₀.st.bitmap = 0) (hwait : c.status = .waiting) (hbitmap : c.st.bitmap ≠ 0) :
    Loading s c.st c.heap.mem ∧ c.st.receivedPackets ≠ c.st.totalPackets := by
  cases h with
  | start => exact absurd hstart hbitmap
  | loading _ hload hmissing _ => exact ⟨hload, hmissing⟩
  | complete h =>
    obtain ⟨image, hpassed, -⟩ := h
    cases hwait.symm.trans hpassed

/-- A status packet changes one bit behind the packets' bits. -/
theorem Loading.sendNack (h : Loading s c.st c.heap.mem) (hbitmap : c.st.bitmap ≠ 0) :
    Loading s c.st c.sendNack.heap.mem ∧ ∀ n < c.st.totalPackets,
      bit c.sendNack.heap.mem c.st.bitmap n = bit c.heap.mem c.st.bitmap n := by
  have hmem : c.sendNack.heap.mem = invertTrailer c.heap.mem c.st.bitmap c.st.totalPackets := by
    simp [Client.sendNack, slamSendNack, hbitmap]
  have htotal := h.tracks.totalPackets_lt
  have hbits : ∀ n < c.st.totalPackets,
      bit c.sendNack.heap.mem c.st.bitmap n = bit c.heap.mem c.st.bitmap n := by
    intro n hn
    rw [hmem, bit_invertTrailer _ _ (by omega) (by omega) (by omega), if_neg (by omega)]
  refine ⟨{ h with tracks := h.tracks.congr hbits, content := fun i hi hbit => ?_ }, hbits⟩
  have hlt := s.div_lt_packets (h.blockSize ▸ h.tracks.blockSize_pos) hi
  rw [hbits _ (h.totalPackets ▸ hlt)] at hbit
  rw [← h.content i hi hbit, hmem]
  -- the bitmap lies behind the image
  obtain ⟨d, hd, hd', hbase⟩ := h.tracks.layout
  have hsize := h.totalBytes
  have hne : c.st.image + i ≠ addr c.st.bitmap c.st.totalPackets := by
    rw [addr_bitmap hbase]
    omega
  unfold invertTrailer
  split
  · exact (set_of_ne _ _ hne).trans (set_of_ne _ _ hne)
  · exact set_of_ne _ _ hne

/-- **A round completes the file.** Whatever packets of the file have come, in any order, and whichever were
    lost: if the run lengths of what is missing fit in the status packet that the client sends after a timeout,
    the server answers it with just the missing packets, and once they have come, in any order and with any
    others, the file is passed on. -/
theorem round_completes (hs : s.Sendable) (hsize : s.file.length < 2 ^ 29)
    (hmod : s.file.length % s.blockSize ≠ 0) (haccept : s.Accepted) {heap : Alloc.Heap}
    (hheap : FitsHeap heap ((s.packets + 1 + 7) / 8) s.file.length) (totalBytes : Nat) (data : Store)
    {ps : List (Nat × Packet)} (hps : ∀ q ∈ ps, Arrives s q)
    (hc : (ps.map (fun q => .data q.2)).foldl Client.step (Client.start heap totalBytes data) = c)
    (hwait : c.status = .waiting) (hretry : c.retry ≤ maxRetries) (hbitmap : c.st.bitmap ≠ 0)
    (hfits : fitsNack 0 (bitmapRuns (Bitmap.bit c.heap.mem c.st.bitmap) c.st.totalPackets) = true) :
    ∃ bytes, (c.step .timeout).sent = c.sent ++ [bytes] ∧ ∀ nack : Store, nack.Has 0 bytes →
      (∃ fuel, answer s.long nack bytes.length fuel =
          some (missing (Bitmap.bit c.heap.mem c.st.bitmap) s.packets)) ∧
        ∀ qs : List (Nat × Packet), (∀ q ∈ qs, Arrives s q) →
          (∀ n ∈ missing (Bitmap.bit c.heap.mem c.st.bitmap) s.packets, n ∈ qs.map Prod.fst) →
          Complete s ((qs.map (fun q => .data q.2)).foldl Client.step (c.step .timeout)) := by
  have hstart : Progress s (start heap totalBytes data) (start heap totalBytes data) [] := .start
  have hprogress := (progress_run hs hsize hmod haccept hheap hps hstart nofun).2
  rw [hc] at hprogress
  obtain ⟨hload, hmissing⟩ := hprogress.loading_of_waiting rfl hwait hbitmap
  have htotal := hload.totalPackets
  have hpos : 1 ≤ s.packets := Nat.lt_of_le_of_lt (Nat.zero_le _)
    (s.div_lt_packets hs.blockSize_pos hs.file_pos)
  have hlt : s.packets < 2 ^ 29 := by
    have := start_lt hs.blockSize_pos (show s.packets - 1 < s.packets by omega)
    have := Nat.le_mul_of_pos_right (s.packets - 1) hs.blockSize_pos
    omega
  obtain ⟨k, hsent, hall⟩ := transmitNack_fields c.st c.heap.mem c.nack hbitmap (by omega) (by omega)
  rw [hall hfits] at hsent
  have hstep : c.step .timeout = { c with retry := c.retry + 1 }.sendNack := by
    rw [step, if_pos hwait, turn, if_neg (by omega)]
  rw [hstep]
  refine ⟨_, congrArg (fun bytes => c.sent ++ [bytes]) hsent, fun nack hnack => ⟨?_, ?_⟩⟩
  · rw [← htotal, ← asked_bitmapRuns _ (by omega)]
    refine answer_asked hs.long ?_ (fun v hv => runs_tail_pos _ _ _ v hv) ⟨hnack, by simp⟩
    have hsum : (bitmapRuns (bit c.heap.mem c.st.bitmap) c.st.totalPackets).sum < _ :=
      sum_runs_lt true 0 (by simp)
    simp at hsum
    omega
  · intro qs hqs hcover
    obtain ⟨hload', hbits⟩ := Loading.sendNack (c := { c with retry := c.retry + 1 }) hload hbitmap
    -- what has come before the round, and what comes in it
    have hseen : ∀ n ∈ (List.range s.packets).filter (bit c.heap.mem c.st.bitmap), n < s.packets :=
      fun n hn => List.mem_range.mp (List.mem_filter.mp hn).1
    have hround : Progress s (start heap totalBytes data) { c with retry := c.retry + 1 }.sendNack
        ((List.range s.packets).filter (bit c.heap.mem c.st.bitmap)) :=
      .loading hwait hload' hmissing (fun n hn => (hbits n (htotal ▸ hseen n hn)).trans
        (List.mem_filter.mp hn).2)
    refine (progress_run hs hsize hmod haccept hheap hqs hround hseen).2.complete_of_all hs (fun n hn => ?_)
    by_cases hbit : bit c.heap.mem c.st.bitmap n = true
    · exact List.mem_append_right _ (List.mem_filter.mpr ⟨List.mem_range.mpr hn, hbit⟩)
    · refine List.mem_append_left _ (List.mem_reverse.mpr (hcover n ?_))
      exact List.mem_filter.mpr ⟨List.mem_range.mpr hn, by simpa using hbit⟩

/-- The second packet of three bytes has come, and the first one is asked for and sent. -/
theorem threeBytes_recovered : ∃ bytes fuel,
    answer 4 (splice (fun _ => 0) 0 bytes) bytes.length fuel = some [0] ∧
      Complete threeBytes ([.data (frame (threeBytes.payload 1)), .timeout,
        .data (frame (threeBytes.payload 0))].foldl Client.step roomyClient) := by
  have hs : threeBytes.Sendable := ⟨by decide, by decide, by decide, by decide, by decide, by decide⟩
  have hframe : ∀ n < 2, Arrives threeBytes (n, frame (threeBytes.payload n)) := fun n hn =>
    arrives_frame hs (by decide) hn
  have hheap : FitsHeap ⟨0x400000, 0x200000, 0x400000, fun _ => 0⟩ 1 3 :=
    ⟨by decide, by decide, by decide, by decide⟩
  obtain ⟨bytes, -, hround⟩ := round_completes hs (by decide) (by decide) (by decide) hheap 0 (fun _ => 0)
    (List.forall_mem_singleton.mpr (hframe 1 (by decide))) rfl (by decide) (by decide) (by decide) (by decide)
  obtain ⟨⟨fuel, hanswer⟩, hcomplete⟩ := hround _ (slice_splice_self (fun _ => 0) 0 bytes)
  have hfile := hcomplete [(0, frame (threeBytes.payload 0))] (by simpa using hframe 0 (by decide)) (by decide)
  simp only [List.map_cons, List.map_nil, List.foldl_cons, List.foldl_nil] at hfile ⊢
  exact ⟨bytes, fuel, hanswer.trans (by decide), hfile⟩

end Slam
