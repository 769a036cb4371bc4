import Etherboot.Slam.Accounting

set_option autoImplicit false

/-! # A new SLAM header

`reinit_slam_state` takes whatever header a packet begins with. It skips the transaction, decodes the
file's size and the block size, and looks at the error flag only then: a field is read although it
lies behind the end of the packet. It divides by the block size before it has looked at it. And it
does not check the pointer to the bitmap, nor can it know that `allot` has wrapped around for the
image. `sound_iff` says that nothing else goes wrong. -/

namespace Slam

open Memory Prog Alloc

/-! ## What is read of a packet -/

/-- `slam_skip`, byte by byte. -/
def readSkip (ptr fin : Nat) : Prog (Option Nat) :=
  if ptr ≥ fin then pure none
  else do
    let b ← readByte ptr
    pure (if fieldLen b = 0 then none else if ptr + fieldLen b ≥ fin then none else some (ptr + fieldLen b))

/-- The loop of `slam_decode`, byte by byte. -/
def readValue (long ptr value : Nat) : Nat → Prog Nat
  | 0 => pure value
  | n + 1 => do
      let b ← readByte ptr
      readValue long (ptr + 1) (((value <<< 8) % 2 ^ (8 * long)) ||| b.toNat) n

/-- `slam_decode`, byte by byte. -/
def readField (long ptr fin : Nat) (err : Int) : Prog (Nat × Nat × Int) := do
  let b ← readByte ptr
  let err := if ptr ≥ fin then -1 else err
  if fieldLen b = 0 ∨ fieldLen b > long then pure (0, ptr, -1)
  else do
    let value ← readValue long (ptr + 1) (b.toNat &&& 0x1f) (fieldLen b - 1)
    pure (value, ptr + fieldLen b, if ptr + fieldLen b ≥ fin then -1 else err)

/-- All that `reinit_slam_state` reads of a packet: the header, and once more for the copy of it. -/
def readHeader (fin : Nat) : Prog (Nat × Nat × Nat × Int) := do
  let skipped ← readSkip headerOffset fin
  let total ← readField 4 (skipped.getD headerOffset) fin (if skipped.isSome then 0 else -1)
  let block ← readField 4 total.2.1 fin total.2.2
  if block.2.2 = 0 ∧ block.1 ≠ 0 then do
    let _ ← readBytes headerOffset (block.2.1 - headerOffset)
    pure (total.1, block.1, block.2.1, block.2.2)
  else pure (total.1, block.1, block.2.1, block.2.2)

variable {m : Store} {fin : Nat}

theorem run_readSkip (m : Store) (ptr fin : Nat) : (readSkip ptr fin).run m = (slamSkip m ptr fin, m) := by
  simp only [readSkip, slamSkip, run_ite, run_readByte_bind, run_pure]
  split <;> rfl

theorem run_readValue (long : Nat) (m : Store) (ptr value n : Nat) :
    (readValue long ptr value n).run m = (getBytes long m ptr value n, m) := by
  induction n generalizing ptr value with
  | zero => rfl
  | succ n ih => rw [readValue, run_readByte_bind, ih, getBytes]

theorem run_readField (long : Nat) (m : Store) (ptr fin : Nat) (err : Int) :
    (readField long ptr fin err).run m = (slamDecode long m ptr fin err, m) := by
  simp only [readField, run_readByte_bind, run_ite, run_pure, slamDecode]
  split
  · rfl
  · rw [run_bind_of (run_readValue ..), run_pure]

namespace Packet

variable (p : Packet)

/-- Where the file's size is decoded: behind the transaction, or in its place if it is not skipped. -/
def totalAt : Nat := (slamSkip p.bytes headerOffset p.packetlen).getD headerOffset

/-- The file's size with the position behind and `err`, and the block size likewise. -/
def total : Nat × Nat × Int :=
  slamDecode 4 p.bytes p.totalAt p.packetlen
    (if (slamSkip p.bytes headerOffset p.packetlen).isSome then 0 else -1)

def block : Nat × Nat × Int := slamDecode 4 p.bytes p.total.2.1 p.packetlen p.total.2.2

theorem header_eq : p.header = (p.total.1, p.block.1, p.block.2.1, p.block.2.2) := by
  simp only [header, block, total, totalAt]
  cases slamSkip p.bytes headerOffset p.packetlen with
  | none => rfl
  | some data => rfl

theorem block_end (h : p.block.2.2 = 0) : p.block.2.1 < p.packetlen := by
  have hblock : slamDecode 4 p.bytes p.total.2.1 p.packetlen p.total.2.2 =
      (p.block.1, p.block.2.1, p.block.2.2) := rfl
  exact (slamDecode_ok hblock (by omega)).2.2.1

end Packet

/-- The field at `ptr` is read within the packet: a length that is refused counts as one byte. -/
def FieldInside (m : Store) (ptr fin : Nat) : Prop :=
  ptr < fin ∧ (fieldLen (m ptr) ≤ 4 → ptr + fieldLen (m ptr) ≤ fin)
  deriving Decidable

theorem within_readValue (long ptr value n : Nat) :
    (readValue long ptr value n).Within fin m ↔ n = 0 ∨ ptr + n ≤ fin := by
  induction n generalizing ptr value with
  | zero => simp [readValue]
  | succ n ih =>
    rw [readValue, within_bind_of (run_readByte ptr m), within_readByte, ih]
    omega

theorem within_readField (ptr : Nat) (err : Int) :
    (readField 4 ptr fin err).Within fin m ↔ FieldInside m ptr fin := by
  rw [readField, within_bind_of (run_readByte ptr m), within_readByte, within_ite, FieldInside]
  by_cases hlen : fieldLen (m ptr) = 0 ∨ fieldLen (m ptr) > 4
  · simp only [if_pos hlen, within_pure, and_true]
    omega
  · rw [if_neg hlen, within_bind_of (run_readValue ..), within_readValue]
    simp only [within_pure, and_true]
    omega

theorem within_readSkip (ptr : Nat) : (readSkip ptr fin).Within fin m := by
  rw [readSkip, within_ite]
  split
  · exact within_pure _ _ _
  · next hlt =>
      rw [within_bind_of (run_readByte ptr m), within_readByte]
      exact ⟨by omega, within_pure _ _ _⟩

/-- What is read of a packet is inside it exactly if the two integers are. -/
theorem within_readHeader (p : Packet) :
    (readHeader p.packetlen).Within p.packetlen p.bytes ↔
      FieldInside p.bytes p.totalAt p.packetlen ∧ FieldInside p.bytes p.total.2.1 p.packetlen := by
  have hcopy : (if p.block.2.2 = 0 ∧ p.block.1 ≠ 0 then do
        let _ ← readBytes headerOffset (p.block.2.1 - headerOffset)
        pure (p.total.1, p.block.1, p.block.2.1, p.block.2.2)
      else pure (p.total.1, p.block.1, p.block.2.1, p.block.2.2)).Within p.packetlen p.bytes := by
    split
    · next hok =>
        have hend := p.block_end hok.1
        rw [within_bind_of (run_readBytes ..), within_readBytes]
        exact ⟨by omega, within_pure _ _ _⟩
    · exact within_pure _ _ _
  rw [readHeader, within_bind_of (run_readSkip ..), within_bind_of (run_readField ..),
    within_bind_of (run_readField ..), within_readField, within_readField]
  exact ⟨fun h => ⟨h.2.1, h.2.2.1⟩, fun h => ⟨within_readSkip _, h.1, h.2, hcopy⟩⟩

/-! ## What a new transfer needs -/

/-- A block of `size` bytes with its marker has room between `heap_top` and `heap_ptr`. -/
def Fits (h : Alloc.Heap) (size : Nat) : Prop :=
  size + 4 ≤ h.heapPtr ∧ h.heapTop ≤ (h.heapPtr - (size + 4)) / 16 * 16
  deriving Decidable

variable (st : SlamState)

/-- The heap when the bitmap of the transfer before, and the image below it, are given back. -/
def released (heap : Alloc.Heap) : Alloc.Heap :=
  if st.bitmap ≠ 0 then heap.forget (some st.bitmap) else heap

namespace Packet

/-- `total_packets` and `bitmap_len` of the transfer that a header announces. -/
def packets (p : Packet) : Nat := (p.total.1 + p.block.1 - 1) / p.block.1

def bitmapLen (p : Packet) : Nat := (p.packets + 1 + 7) / 8

/-- The header is accepted: it can be decoded, and a block fits into a frame. -/
def Acceptable (p : Packet) : Prop :=
  p.block.2.2 = 0 ∧ p.block.1 ≠ 0 ∧
    p.block.1 + (20 + 8 + (p.block.2.1 - headerOffset) + fieldBytes 4 p.packets) ≤ 1500
  deriving Decidable

/-- There is no room for the image, or there is room for the bitmap and the image's size leaves
    `heap_ptr` above zero. -/
def Roomy (p : Packet) (h : Alloc.Heap) : Prop :=
  ((h.allot p.bitmapLen).2.allotAddr p.total.1 < max h.heapTop (1024 * 1024 - 4)) ∨
    (Fits h p.bitmapLen ∧ p.total.1 + 4 ≤ (h.heapPtr - (p.bitmapLen + 4)) / 16 * 16)
  deriving Decidable

end Packet

/-- What the header of a packet must be like for `reinit_slam_state` to work. -/
structure Provided (heap : Alloc.Heap) (p : Packet) : Prop where
  total : FieldInside p.bytes p.totalAt p.packetlen
  block : FieldInside p.bytes p.total.2.1 p.packetlen
  blockSize : p.block.2.2 = 0 → p.block.1 ≠ 0
  room : p.Acceptable → p.Roomy (released st heap)

/-- A transfer as it should be when it begins: its numbers are those of the header, which is copied,
    and bitmap and image are in what was free of the heap, the bitmap clear. -/
structure Established (free : Alloc.Heap) (p : Packet) (st : SlamState) (heap : Alloc.Heap) : Prop where
  blockSize : 1 ≤ st.blockSize
  totalPackets : st.totalPackets = (st.totalBytes + st.blockSize - 1) / st.blockSize
  hdrLen : st.hdrLen ≤ maxHdr
  hdr : st.hdr.slice 0 st.hdrLen = p.bytes.slice headerOffset st.hdrLen
  image : free.heapTop ≤ st.image ∧ st.image + st.totalBytes ≤ st.bitmap
  bitmap : st.bitmap + (st.totalPackets + 1 + 7) / 8 ≤ free.heapPtr
  clear : ∀ i ≤ st.totalPackets, Bitmap.bit heap.mem st.bitmap i = false

/-- A client that does nothing any more, so that a later transfer begins without bitmap and image. -/
def Abandoned (c : Client) : Prop :=
  (∀ es : List Event, es.foldl Client.step c = c) ∧
    ∀ heap totalBytes nack, (Client.start heap totalBytes nack).st.bitmap = 0 ∧
      (Client.start heap totalBytes nack).st.image = 0

/-- A packet is taken without a division by zero: it begins a transfer or ends the one before. -/
def Entry.Sound (c : Client) (p : Packet) : Entry → Prop
  | .fault => False
  | .refused st heap => Abandoned { c with st := st, heap := heap, status := .returned }
  | .entered st heap _ => Established (released c.st c.heap) p st heap

/-- `reinit_slam_state` reads inside the packet only, and takes it as it should. -/
def Sound (c : Client) (p : Packet) : Prop :=
  (readHeader p.packetlen).Within p.packetlen p.bytes ∧ (reinitSlamState c.st c.heap p).Sound c p

/-! ## Room on the heap -/

variable {h : Alloc.Heap} {size : Nat}

theorem allotAddr_of_le (hptr : h.heapPtr < 2 ^ 32) (hle : size + 4 ≤ h.heapPtr) :
    h.allotAddr size = (h.heapPtr - (size + 4)) / 16 * 16 := by
  rw [Heap.allotAddr, andNot_fifteen, wsub_of_le hle hptr]

/-- A size above `heap_ptr` makes the address wrap around. -/
theorem lt_allotAddr_of_gt (hptr : h.heapPtr < 2 ^ 32) (hgt : h.heapPtr < size + 4) :
    h.heapPtr + 4 < h.allotAddr size + 4 + size := by
  obtain ⟨d, hd, hd', heq⟩ := h.allotAddr_eq size hptr
  omega

/-- Both blocks are in what was free of the heap exactly if there is room for them. -/
theorem placed_iff (hptr : h.heapPtr < 2 ^ 32) (len size : Nat) :
    ((h.allot len).2.allotAddr size + 4 + size ≤ (h.allot len).1.getD 0 ∧
        (h.allot len).1.getD 0 + len ≤ h.heapPtr) ↔
      Fits h len ∧ size + 4 ≤ (h.heapPtr - (len + 4)) / 16 * 16 := by
  by_cases htop : h.allotAddr len < h.heapTop
  · -- a null pointer, with no room for a block
    rw [Heap.allot_eq_none htop, Option.getD_none]
    constructor
    · rintro ⟨hle, -⟩
      omega
    · rintro ⟨⟨hle, hroom⟩, -⟩
      rw [allotAddr_of_le hptr hle] at htop
      omega
  · rw [Heap.allot_eq_some (by omega), Option.getD_some]
    have hlt := h.allotAddr_lt len
    have hbelow := @allotAddr_of_le { h with
      heapPtr := h.allotAddr len, mem := h.mem.splice (h.allotAddr len) (le32Bytes len) } size hlt
    have habove := @lt_allotAddr_of_gt { h with
      heapPtr := h.allotAddr len, mem := h.mem.splice (h.allotAddr len) (le32Bytes len) } size hlt
    simp only at hbelow habove ⊢
    constructor
    · rintro ⟨himage, hbitmap⟩
      have hsize : size + 4 ≤ h.allotAddr len := by
        by_contra hgt
        omega
      rw [allotAddr_of_le hptr (by omega)] at htop hsize
      exact ⟨⟨by omega, by omega⟩, hsize⟩
    · rintro ⟨⟨hle, -⟩, hsize⟩
      have haddr := allotAddr_of_le hptr hle
      omega

/-- The outcome of `allotTransfer` for the address that is computed for the image. -/
theorem allotTransfer_eq (heap : Heap) :
    let h := released st heap
    let len := (st.totalPackets + 1 + 7) / 8
    let addr := (h.allot len).2.allotAddr st.totalBytes
    (addr < max h.heapTop (1024 * 1024 - 4) ∧ ∃ st' heap', allotTransfer st heap = .refused st' heap') ∨
    (max h.heapTop (1024 * 1024 - 4) ≤ addr ∧ ∃ heap' mem, allotTransfer st heap =
      .entered { st with bitmap := (h.allot len).1.getD 0, image := addr + 4 } heap'
        (headerOffset + st.hdrLen) ∧ heap'.mem = memset mem ((h.allot len).1.getD 0) 0 len) := by
  intro h len addr
  have htop : (h.allot len).2.heapTop = h.heapTop := by
    rcases h.allot_cases len with heq | heq <;> rw [heq]
  have hdef : allotTransfer st heap =
      (let image := (h.allot len).2.allot st.totalBytes
       if image.1.getD 0 < 1024 * 1024 then
         .refused { st with bitmap := (h.allot len).1.getD 0, image := image.1.getD 0 } image.2
       else .entered { st with bitmap := (h.allot len).1.getD 0, image := image.1.getD 0 }
         { image.2 with mem := memset image.2.mem ((h.allot len).1.getD 0) 0 len }
         (headerOffset + st.hdrLen)) := rfl
  by_cases hlt : addr < h.heapTop
  · rw [Heap.allot_eq_none (by rw [htop]; exact hlt)] at hdef
    exact Or.inl ⟨by omega, _, _, hdef⟩
  · rw [Heap.allot_eq_some (by rw [htop]; exact Nat.le_of_not_lt hlt)] at hdef
    simp only [Option.getD_some] at hdef
    by_cases hlow : addr + 4 < 1024 * 1024
    · rw [if_pos hlow] at hdef
      exact Or.inl ⟨by omega, _, _, hdef⟩
    · rw [if_neg hlow] at hdef
      exact Or.inr ⟨by omega, _, _, hdef, rfl⟩

/-! ## The state from the header -/

theorem slamDecode_le (m : Store) (ptr fin : Nat) (err : Int) :
    (slamDecode 4 m ptr fin err).2.1 ≤ ptr + 4 := by
  simp only [slamDecode]
  split
  · exact Nat.le_add_right ..
  · next hlen =>
      simp only
      omega

namespace Packet

/-- A header is no longer than its three fields: seven bytes, and twice four. -/
theorem block_le (p : Packet) : p.block.2.1 - headerOffset ≤ 15 := by
  have htotal : p.total.2.1 ≤ p.totalAt + 4 := slamDecode_le ..
  have hblock : p.block.2.1 ≤ p.total.2.1 + 4 := slamDecode_le ..
  have hskip : p.totalAt ≤ headerOffset + 7 := by
    rw [totalAt, slamSkip]
    have hlen : fieldLen (p.bytes headerOffset) ≤ 7 := by
      rw [fieldLen_eq]
      have := (p.bytes headerOffset).toNat_lt
      omega
    split
    · exact Nat.le_add_right ..
    · simp only
      split
      · exact Nat.le_add_right ..
      · split
        · exact Nat.le_add_right ..
        · rw [Option.getD_some]
          omega
  omega

theorem packets_lt (p : Packet) : p.packets < 2 ^ 30 :=
  Slam.packets_lt (slamDecode_lt ..) (slamDecode_lt ..)

/-- The state that `reinit_slam_state` sets up before it asks for room. -/
def opened (p : Packet) (st : SlamState) : SlamState :=
  { st with
    blockSize := p.block.1, totalBytes := p.total.1, totalPackets := p.packets,
    hdrLen := p.block.2.1 - headerOffset, receivedPackets := 0, puts := [],
    hdr := (st.hdr.splice 0 (field 4 p.packets)).splice 0
      (p.bytes.slice headerOffset (p.block.2.1 - headerOffset)) }

end Packet

theorem reinitSlamState_eq (heap : Heap) (p : Packet) :
    reinitSlamState st heap p =
      if p.block.2.2 ≠ 0 then .refused { st with hdrLen := 0 } heap
      else if p.block.1 = 0 then .fault
      else if p.Acceptable then allotTransfer (p.opened st) heap
      else .refused (p.opened st) heap := by
  have hT : p.total.1 < 2 ^ 29 := slamDecode_lt ..
  have hB : p.block.1 < 2 ^ 29 := slamDecode_lt ..
  have hn := p.packets_lt
  have hlen := p.block_le
  have hfb : fieldBytes 4 p.packets < 8 := fieldBytes_lt_eight
  simp only [reinitSlamState, p.header_eq]
  by_cases herr : p.block.2.2 ≠ 0
  · rw [if_pos herr, if_pos herr]
  rw [if_neg herr, if_neg herr]
  by_cases hzero : p.block.1 = 0
  · rw [if_pos hzero, if_pos hzero]
  rw [if_neg hzero, if_neg hzero]
  have hpackets : wsub ((p.total.1 + p.block.1) % 2 ^ 32) 1 / p.block.1 = p.packets := by
    rw [wsub_of_le (by omega) (Nat.mod_lt _ (by decide)), Nat.mod_eq_of_lt (by omega), Packet.packets]
  have hnumber : slamEncode 4 st.hdr 0 maxHdr p.packets =
      some (fieldBytes 4 p.packets, st.hdr.splice 0 (field 4 p.packets)) := by
    have hle := valueBytes_le 4 p.packets
    rw [slamEncode_eq (by omega), if_pos (by simp only [maxHdr]; omega), Nat.zero_add]
  have hframe : p.block.1 > wsub 1500 (20 + 8 + (p.block.2.1 - headerOffset) + fieldBytes 4 p.packets) ↔
      ¬ p.Acceptable := by
    rw [wsub_of_le (by omega) (by decide), Packet.Acceptable]
    omega
  rw [hpackets, hnumber, Option.getD_some]
  by_cases haccept : p.Acceptable
  · rw [if_neg (by rw [hframe]; simpa using haccept), if_pos haccept]
    rfl
  · rw [if_pos (hframe.mpr haccept), if_neg haccept]
    rfl

/-! ## The result -/

theorem abandoned_of_returned {c : Client} (h : c.status = .returned) : Abandoned c := by
  refine ⟨fun es => ?_, fun _ _ _ => ⟨rfl, rfl⟩⟩
  induction es with
  | nil => rfl
  | cons e es ih =>
    have hstep : c.step e = c := by
      rw [Client.step, if_neg (by rw [h]; decide)]
    rw [List.foldl_cons, hstep, ih]

/-- With its fields set up, a transfer gets its room exactly if there is some. -/
theorem allotTransfer_sound_iff {c : Client} {p : Packet} (haccept : p.Acceptable)
    (hptr : (released c.st c.heap).heapPtr < 2 ^ 32) :
    (allotTransfer (p.opened c.st) c.heap).Sound c p ↔ p.Roomy (released c.st c.heap) := by
  have hn := p.packets_lt
  have hrel : released (p.opened c.st) c.heap = released c.st c.heap := rfl
  rcases allotTransfer_eq (p.opened c.st) c.heap with
    ⟨hlt, st', heap', heq⟩ | ⟨hge, heap', mem, heq, hmem⟩
  · rw [heq]
    exact iff_of_true (abandoned_of_returned rfl) (Or.inl hlt)
  · rw [heq, hrel] at *
    have hplaced := placed_iff hptr p.bitmapLen p.total.1
    constructor
    · intro h
      exact Or.inr (hplaced.mp ⟨h.image.2, h.bitmap⟩)
    · rintro (hlt | hroom)
      · exact absurd hlt (Nat.not_lt.mpr hge)
      · obtain ⟨himage, hbitmap⟩ := hplaced.mpr hroom
        refine ⟨Nat.pos_of_ne_zero haccept.2.1, rfl, ?_, ?_, ⟨?_, himage⟩, hbitmap, ?_⟩
        · have := p.block_le
          simp only [Packet.opened, maxHdr]
          omega
        · have hcopy := Store.slice_splice_self (c.st.hdr.splice 0 (field 4 p.packets)) 0
            (p.bytes.slice headerOffset (p.block.2.1 - headerOffset))
          rwa [Store.length_slice] at hcopy
        · simp only
          omega
        · intro i hi
          rw [hmem]
          replace hi : i ≤ p.packets := hi
          exact bit_memset (by simp only [Packet.opened]; omega) (by simp only [Packet.opened]; omega)

/-- `reinit_slam_state` does what it should exactly if the fields it reads are inside the packet, the
    block size is not zero, and there is room for the bitmap whenever there is for the image. -/
theorem sound_iff (c : Client) (p : Packet) (hptr : c.heap.heapPtr < 2 ^ 32)
    (hbot : c.heap.heapBot < 2 ^ 32) : Sound c p ↔ Provided c.st c.heap p := by
  have hreleased : (released c.st c.heap).heapPtr < 2 ^ 32 := by
    simp only [released]
    split
    · simp only [Heap.forget]
      split
      · exact hbot
      · exact Nat.mod_lt _ (by decide)
    · exact hptr
  have hrefused (st : SlamState) (heap : Heap) :
      Abandoned { c with st := st, heap := heap, status := .returned } := abandoned_of_returned rfl
  rw [Sound, within_readHeader, reinitSlamState_eq]
  by_cases herr : p.block.2.2 ≠ 0
  · rw [if_pos herr]
    constructor
    · rintro ⟨⟨htotal, hblock⟩, -⟩
      exact ⟨htotal, hblock, fun h => absurd h herr, fun h => absurd h.1 herr⟩
    · intro h
      exact ⟨⟨h.total, h.block⟩, hrefused ..⟩
  rw [if_neg herr]
  rw [not_not] at herr
  by_cases hzero : p.block.1 = 0
  · rw [if_pos hzero]
    exact iff_of_false (fun h => h.2) (fun h => h.blockSize herr hzero)
  rw [if_neg hzero]
  by_cases haccept : p.Acceptable
  · rw [if_pos haccept]
    rw [allotTransfer_sound_iff haccept hreleased]
    constructor
    · rintro ⟨⟨htotal, hblock⟩, hroomy⟩
      exact ⟨htotal, hblock, fun _ => hzero, fun _ => hroomy⟩
    · intro h
      exact ⟨⟨h.total, h.block⟩, h.room haccept⟩
  · rw [if_neg haccept]
    constructor
    · rintro ⟨⟨htotal, hblock⟩, -⟩
      exact ⟨htotal, hblock, fun _ => hzero, fun h => absurd h haccept⟩
    · intro h
      exact ⟨⟨h.total, h.block⟩, hrefused ..⟩

/-- A header with a block size of 0, which is divided by. -/
theorem zeroBlock_not_sound :
    reinitSlamState roomyClient.st roomyClient.heap (frame [0x21, 0x23, 0x20, 0x20]) = .fault ∧
      ¬ Sound roomyClient (frame [0x21, 0x23, 0x20, 0x20]) := by
  have hfault : reinitSlamState roomyClient.st roomyClient.heap (frame [0x21, 0x23, 0x20, 0x20]) =
      .fault := by
    rw [reinitSlamState_eq, if_neg (by decide), if_pos (by decide)]
  refine ⟨hfault, fun h => ?_⟩
  have hsound := h.2
  exact hsound

/-- Three bytes in blocks of two. -/
theorem threeBytes_sound : Sound roomyClient (frame [0x21, 0x23, 0x22, 0x20]) :=
  (sound_iff roomyClient _ (by decide) (by decide)).mpr
    ⟨by decide, by decide, fun _ => by decide, fun _ => by decide +kernel⟩

end Slam
