import Etherboot.Tftm.Completion
import Etherboot.Tftm.OptionWalk

set_option autoImplicit false

/-! # A file sent by multicast

A server that does as it should sends the options first, with the true size, and then the blocks of
the file in any order, some of them more than once, with the options in between. `transfer_complete`
says that the client takes every block, goes on as long as one is missing, and then passes on the file.

The last bits of the bitmap may lie in the byte behind it, which nobody clears. Here that byte is
clear and nobody else's. -/

namespace Tftm

open Memory Client Bitmap Store Text
open Tftp (opData opOack)

/-! ## What the server sends -/

variable (file : List UInt8) (b : Nat)

/-- The number of blocks of a file: the last one has less than 1024 bytes, perhaps none. -/
def blocks : Nat := file.length / minPacket + 1

def piece : List UInt8 := (file.drop ((b - 1) * minPacket)).take minPacket

/-- A packet with `payload`. What is behind it is arbitrary. -/
structure Carries (p : Packet) (payload : List UInt8) : Prop where
  has : p.body.Has 0 payload
  udpLen : p.udpLen.toNat = 8 + payload.length
  le_packetlen : 14 + 20 + 8 + payload.length ≤ p.packetlen

def dataPayload : List UInt8 := [0, 3] ++ be16Bytes b ++ piece file b

def oackPayload (options : List UInt8) : List UInt8 := [0, 6] ++ options

/-- The options for a file of `size` bytes. -/
structure Announces (size : Nat) (options : List UInt8) (o : Options) : Prop where
  filesize : o.filesize = size
  blockSize : o.blockSize = minPacket
  length_le : options.length ≤ Tftp.defaultsizePacket
  announced : ∃ opts : List Opt, Announced opts options ∧
    opts.Perm [.tsize size, .blksize, .multicast o.multicastIp o.multicastPort o.ismaster]

/-- Packets of the transfer: the options, or a block of the file. Those that the client waits for pass
    `await_tftm`. -/
def Served (file options : List UInt8) (c : Client) : Event → Prop
  | .timeout _ => False
  | .packet p => (c.status = .waiting → c.awaitTftm p = true) ∧
      (Carries p (oackPayload options) ∨
        ∃ b, 1 ≤ b ∧ b ≤ blocks file ∧ Carries p (dataPayload file b))

/-- The event brings block `b`. -/
def Brings : Event → Prop
  | .timeout _ => False
  | .packet p => p.opcode = opData ∧ p.block = b

/-- There is room for bitmap and image of a file of `size` bytes in `total` blocks, and the byte behind the
    bitmap is clear: so the bitmap has the bits from 0 to the one behind the last block's. -/
structure Room (heap : Alloc.Heap) (total size : Nat) : Prop where
  fits : Slam.FitsHeap heap (Client.bitmapBytes total) size
  clear : heap.mem (heap.allotAddr (Client.bitmapBytes total) + 4 + Client.bitmapBytes total) = 0

theorem length_piece :
    (piece file b).length = min minPacket (file.length - (b - 1) * minPacket) := by
  rw [piece, List.length_take, List.length_drop]

/-! ## Reading the packets -/

section Read

variable {p : Packet} {file options : List UInt8} {b : Nat}

theorem Carries.oack (h : Carries p (oackPayload options)) :
    p.opcode = opOack ∧ p.body.Has 2 options ∧
      (options.length ≤ Tftp.defaultsizePacket → p.optionLen = options.length) := by
  obtain ⟨hop, hopts⟩ := has_append.mp h.has
  obtain ⟨h0, h1⟩ := has_cons.mp hop
  have hlen := h.udpLen
  refine ⟨?_, hopts, fun hle => ?_⟩
  · rw [Packet.opcode, be16, h0, (has_cons.mp h1).1]
    rfl
  · rw [oackPayload, List.length_append] at hlen
    rw [Packet.optionLen, hlen]
    simp only [List.length_cons, List.length_nil, Tftp.defaultsizePacket] at hle ⊢
    omega

theorem Carries.data (h : Carries p (dataPayload file b)) (hb : b < 2 ^ 16) :
    p.opcode = opData ∧ p.block = b ∧ p.body.Has 4 (piece file b) ∧
      p.udpLen.toNat = (piece file b).length + 12 ∧
      (piece file b).length + (14 + 20 + 8 + 4) ≤ p.packetlen := by
  obtain ⟨hhead, hpiece⟩ := has_append.mp h.has
  obtain ⟨hop, hblock⟩ := has_append.mp hhead
  obtain ⟨h0, h1⟩ := has_cons.mp hop
  obtain ⟨h2, h3⟩ := has_cons.mp hblock
  have hudp := h.udpLen
  have hframe := h.le_packetlen
  have hlen : (dataPayload file b).length = 4 + (piece file b).length := by
    rw [dataPayload, List.length_append]
    rfl
  refine ⟨?_, ?_, hpiece, by omega, by omega⟩
  · rw [Packet.opcode, be16, h0, (has_cons.mp h1).1]
    rfl
  · have h3' := (has_cons.mp h3).1
    rw [Packet.block, be16]
    simp only [List.length_cons, List.length_nil, Nat.zero_add] at h2 h3'
    rw [show (2 : Nat) = 1 + 1 from rfl, h2, h3', UInt8.toNat_ofNat', UInt8.toNat_ofNat']
    omega

theorem Carries.read_options {c : Client} {o : Options} (h : Carries p (oackPayload options))
    (ho : Announces file.length options o) (hpos : 0 < file.length) :
    c.options p = some (7, o) := by
  obtain ⟨-, hhas, hlen⟩ := h.oack
  obtain ⟨opts, hopts, hperm⟩ := ho.announced
  have hle := ho.length_le
  rw [Client.options, hlen hle, readOptions_announced c.opts hperm hpos hopts hhas
    (by simp only [Tftp.defaultsizePacket, minPacket] at *; omega), ← ho.filesize, ← ho.blockSize]

end Read

/-! ## The transfer in memory -/

/-- The bits are those of the blocks stored. -/
structure Exact (c : Client) : Prop extends Tracks c where
  missing : ∀ b, 1 ≤ b → b ≤ c.totalPackets → c.stored b = false →
    Bitmap.bit c.heap.mem c.bitmap b = false

section Exact

variable {c c' : Client} {b : Nat}

theorem Exact.congr (h : Exact c) (hk : Keeps c c') (hstored : ∀ b, c'.stored b = c.stored b)
    (hbits : ∀ b ≤ c.totalPackets,
      Bitmap.bit c'.heap.mem c.bitmap b = Bitmap.bit c.heap.mem c.bitmap b) : Exact c' := by
  refine ⟨h.toTracks.congr hk hstored hbits, fun b hb hle hs => ?_⟩
  rw [hk.totalPackets] at hle
  rw [hstored] at hs
  rw [hk.bitmap, hbits b hle]
  exact h.missing b hb hle hs

theorem Exact.quiet (h : Exact c) (hq : Quiet c c') : Exact c' :=
  h.congr hq.toKeeps hq.stored (fun _ _ => by rw [hq.mem])

theorem Exact.looksAt (h : Exact c) (i : Nat) : Exact (c.looksAt i) :=
  h.congr (looksAt_keeps c i) (looksAt_stored c i) (fun _ _ => rfl)

theorem Exact.store (h : Exact c) (p : Packet) (hb : 1 ≤ b) (hle : b ≤ c.totalPackets)
    (hclear : Bitmap.bit c.heap.mem c.bitmap b = false) : Exact (c.store p b) := by
  have hlt := h.totalPackets_lt
  refine ⟨h.toTracks.store p hb hle hclear, fun b' hb' hle' hs => ?_⟩
  replace hle' : b' ≤ c.totalPackets := hle'
  show Bitmap.bit (c.store p b).heap.mem c.bitmap b' = false
  rw [h.store_mem p hb hle, h.bit_memcpy (h.place hb hle) _ _ hle', bit_setBit (by omega) (by omega)]
  rw [h.stored_store p hb hle hb'] at hs
  split at hs
  · cases hs
  · next hne =>
      rw [if_neg hne]
      exact h.missing b' hb' hle' hs

end Exact

/-- The client is loading the file: the blocks that are stored are in their places. -/
structure Loading (o : Options) (c : Client) : Prop extends Exact c where
  opts : c.opts = o
  size : o.filesize = file.length
  high : c.image + file.length ≤ 2 ^ 32
  content : ∀ i (hi : i < file.length), c.stored (i / minPacket + 1) = true →
    c.heap.mem (c.image + i) = file.get ⟨i, hi⟩

section Loading

variable {file : List UInt8} {o : Options} {c : Client}

theorem Loading.total (h : Loading file o c) : c.totalPackets = blocks file := by
  rw [h.totalPackets, h.opts, h.size, blocks]

/-- Steps that keep the variables, the copies, the blocks' bits and the image. -/
theorem Loading.congr {c' : Client} (h : Loading file o c) (hk : Keeps c c')
    (hstored : ∀ b, c'.stored b = c.stored b)
    (hbits : ∀ b ≤ c.totalPackets, bit c'.heap.mem c.bitmap b = bit c.heap.mem c.bitmap b)
    (himage : ∀ i < file.length, c'.heap.mem (c.image + i) = c.heap.mem (c.image + i)) :
    Loading file o c' := by
  refine ⟨h.toExact.congr hk hstored hbits, hk.opts.trans h.opts, h.size, by rw [hk.image]; exact h.high,
    fun i hi hs => ?_⟩
  rw [hstored] at hs
  rw [hk.image, himage i hi]
  exact h.content i hi hs

theorem Loading.quiet {c' : Client} (h : Loading file o c) (hq : Quiet c c') : Loading file o c' :=
  h.congr hq.toKeeps hq.stored (fun _ _ => by rw [hq.mem]) (fun _ _ => by rw [hq.mem])

theorem Loading.looksAt (h : Loading file o c) (i : Nat) : Loading file o (c.looksAt i) :=
  h.congr (looksAt_keeps c i) (looksAt_stored c i) (fun _ _ => rfl) (fun _ _ => rfl)

variable {i b : Nat} {p : Packet}

theorem Loading.addr_ne (h : Loading file o c) {j : Nat} (hi : i < file.length)
    (hj : j ≤ c.totalPackets + 1) : c.image + i ≠ addr c.bitmap j := by
  obtain ⟨d, hd, hlt, hbase⟩ := h.layout
  rw [h.opts, h.size] at hd
  rw [addr_bitmap hbase]
  omega

theorem invertTrailer_of_ne {mem : Store} {bitmap max a : Nat} (h : a ≠ addr bitmap max) :
    Slam.invertTrailer mem bitmap max a = mem a := by
  simp only [Slam.invertTrailer, setBit, clearBit]
  split
  · rw [set_of_ne _ _ h, set_of_ne _ _ h]
  · rw [set_of_ne _ _ h]

/-- The search for the first block missing changes neither blocks' bits nor the image. -/
theorem Loading.looked (h : Loading file o c) : Loading file o c.looked := by
  have hlt := h.totalPackets_lt
  have hk := looked_keeps c
  rw [Client.looked] at hk ⊢
  split
  · next hle =>
    rw [if_pos hle] at hk
    refine h.congr hk (findMissing_stored c hk) (fun _ => findMissing_bit hlt) (fun i hi => ?_)
    exact invertTrailer_of_ne (h.addr_ne hi (Nat.le_refl _))
  · exact h

theorem Loading.expected_eq (h : Loading file o c) (hb : 1 ≤ b) (hle : b ≤ c.totalPackets) :
    c.expected b = (piece file b).length := by
  have htotal := h.total
  rw [expected, h.blockSize, length_piece, h.opts, h.size]
  simp only [blocks, minPacket] at *
  split
  · omega
  · omega

theorem get_piece (hpiece : p.body.Has 4 (piece file b)) (hi : i < file.length)
    (hlo : (b - 1) * minPacket ≤ i) (hlt : i - (b - 1) * minPacket < (piece file b).length) :
    p.body (4 + (i - (b - 1) * minPacket)) = file.get ⟨i, hi⟩ := by
  rw [hpiece.get hlt]
  simp only [piece, List.get_eq_getElem, List.getElem_take, List.getElem_drop]
  congr 1
  omega

theorem in_block (h : i / minPacket + 1 = b) :
    (b - 1) * minPacket ≤ i ∧ i - (b - 1) * minPacket < minPacket := by
  simp only [minPacket] at *
  omega

theorem above_other {image size n : Nat} (h : i / minPacket + 1 ≠ b) (hb : 1 ≤ b)
    (hplace : (b - 1) * minPacket + n ≤ size) (hi : i < size) (hsize : size < 2 ^ 31)
    (hn : n ≤ minPacket) :
    ¬ above ((image + (b - 1) * minPacket) % 2 ^ 32) ((image + i) % 2 ^ 32) < n := by
  unfold above wsub
  simp only [minPacket] at *
  omega

theorem Loading.store (h : Loading file o c) (hb : 1 ≤ b)
    (hle : b ≤ c.totalPackets) (hpiece : p.body.Has 4 (piece file b))
    (hclear : bit c.heap.mem c.bitmap b = false) : Loading file o (c.store p b) := by
  have hmem := h.toTracks.store_mem p hb hle
  have hplace := h.toTracks.place hb hle
  have hexp := h.expected_eq hb hle
  refine ⟨h.toExact.store p hb hle hclear, h.opts, h.size, h.high, fun i hi hs => ?_⟩
  show (c.store p b).heap.mem (c.image + i) = _
  have hhigh := h.high
  have hat : c.image + i = (c.image + i) % 2 ^ 32 := (Nat.mod_eq_of_lt (by omega)).symm
  rw [h.opts, h.size] at hplace
  rw [h.toTracks.stored_store p hb hle (Nat.le_add_left ..)] at hs
  rw [hmem, memcpy]
  by_cases hsame : i / minPacket + 1 = b
  · -- the byte is one of the block's
    obtain ⟨hlo, hhi⟩ := in_block hsame
    have hin : i - (b - 1) * minPacket < (piece file b).length := by
      rw [length_piece, Nat.lt_min]
      exact ⟨hhi, Nat.sub_lt_sub_right hlo hi⟩
    have habove : above ((c.image + (b - 1) * minPacket) % 2 ^ 32) (c.image + i) =
        i - (b - 1) * minPacket := by
      rw [hat, above_offset c.image hlo (by omega)]
    rw [habove, hexp, if_pos hin]
    exact get_piece hpiece hi hlo hin
  · rw [if_neg hsame] at hs
    rw [if_neg, setBit, set_of_ne _ _ (h.addr_ne hi (by omega))]
    · exact h.content i hi hs
    · have hfile := h.size ▸ h.opts ▸ h.filesize
      rw [hat]
      exact above_other hsame hb hplace hi hfile (h.expected_le b)

/-- The client waits as long as a block is missing, and then passes the image on. -/
structure Progress (file : List UInt8) (o : Options) (c : Client) : Prop extends Loading file o c where
  status : (c.status = .waiting ∧ ∃ b, 1 ≤ b ∧ b ≤ blocks file ∧ c.stored b = false) ∨
    (c.status = .passed c.image file.length ∧ ∀ b, 1 ≤ b → b ≤ blocks file → c.stored b = true)

theorem acknowledge_stored (c : Client) (p : Packet) (b : Nat) :
    (c.acknowledge p).stored b = c.stored b := by
  rw [(acknowledge_quiet c p).stored]
  have hk := looked_keeps c
  rw [looked] at hk ⊢
  split
  · next hle =>
    rw [if_pos hle] at hk
    exact findMissing_stored c hk b
  · rfl

section

variable (h : Loading file o c) (hw : c.status = .waiting)

include h hw

theorem Loading.acknowledge (p : Packet) :
    Progress file o (c.acknowledge p) := by
  have hk := acknowledge_keeps c p
  refine ⟨h.looked.quiet (acknowledge_quiet c p), ?_⟩
  rw [acknowledge_status, hk.image, ← h.total]
  simp only [acknowledge_stored]
  by_cases hall : c.receivedPackets = c.totalPackets
  · rw [if_pos hall, h.opts, h.size]
    exact Or.inr ⟨rfl, fun b hb hle => h.toTracks.all_stored hall hb hle⟩
  · rw [if_neg hall]
    refine Or.inl ⟨hw, by_contra (fun hnone => hall ?_)⟩
    rw [h.received]
    refine (List.countP_eq_length.mpr (fun i hi => ?_)).trans List.length_range
    have hi' := List.mem_range.mp hi
    by_contra hnot
    exact hnone ⟨i + 1, by omega, by omega, Bool.eq_false_iff.mpr hnot⟩

theorem Loading.onData (hb : 1 ≤ b) (hle : b ≤ blocks file) (hlt : blocks file < 2 ^ 16)
    (hp : Carries p (dataPayload file b)) :
    Progress file o (c.onData p) ∧
      ∀ b', 1 ≤ b' → ((c.onData p).stored b' = true ↔ c.stored b' = true ∨ b' = b) := by
  obtain ⟨-, hblock, hpiece, hudp, hframe⟩ := hp.data (by omega)
  have hle' : b ≤ c.totalPackets := h.total ▸ hle
  have hexp := h.expected_eq hb hle'
  have hsmall := h.toTracks.expected_le b
  have hexpected : Expected c p := by
    refine ⟨?_, hblock ▸ hle', ?_, by rw [hblock, hexp]; exact hudp, by rw [hblock, hexp]; exact hframe⟩
    · rw [Packet.dataLen, hudp, ← hexp]
      omega
    · rw [h.blockSize]
      exact fun hdiv => by cases hdiv.2
  have hturn := onData_turn c p
  generalize c.onData p = c' at hturn
  rw [← hblock] at hb hpiece hle' ⊢
  cases hturn with
  | ignored _ _ hnot _ => exact absurd hexpected hnot
  | fault _ hfault =>
    rw [h.blockSize] at hfault
    cases hfault.2.2
  | @duplicate c₁ hq hs _ hset =>
    have hload := (h.quiet hq).looksAt p.block
    refine ⟨hload.acknowledge (hs.trans hw) p, fun b' _ => ?_⟩
    have hthere : c.stored p.block = true := by
      by_contra hnot
      have hbit := h.missing p.block hb hle' (Bool.eq_false_iff.mpr hnot)
      cases hset.symm.trans hbit
    rw [acknowledge_stored, looksAt_stored, hq.stored]
    exact ⟨Or.inl, fun hor => hor.elim id (fun heq => heq ▸ hthere)⟩
  | @stored c₁ hq hs _ hclear =>
    have hload := (h.quiet hq).looksAt p.block
    have hnum : p.block ≤ (c₁.looksAt p.block).totalPackets := hq.totalPackets ▸ hle'
    have hclear' : bit (c₁.looksAt p.block).heap.mem (c₁.looksAt p.block).bitmap p.block
        = false := looksAt_clear hq hclear
    refine ⟨(hload.store hb hnum hpiece hclear').acknowledge (hs.trans hw) p, fun b' hb' => ?_⟩
    rw [acknowledge_stored, hload.toTracks.stored_store p hb hnum hb', looksAt_stored, hq.stored]
    by_cases hsame : b' = p.block
    · simp [hsame]
    · simp [hsame]

theorem Loading.onOack (hopts : c.options p = some (7, o)) :
    Progress file o (c.onOack p) ∧ ∀ b, (c.onOack p).stored b = c.stored b := by
  have hq : Quiet c { c with opts := o, len := p.optionLen } :=
    ⟨⟨h.opts.symm, rfl, rfl, rfl, rfl, rfl, rfl, rfl⟩, rfl, rfl⟩
  rw [Client.onOack, hopts, Client.onOptions]
  rw [if_neg (by simp), if_pos h.recvdOack]
  refine ⟨(h.quiet hq).acknowledge hw p, fun b => ?_⟩
  rw [acknowledge_stored, hq.stored]

end

end Loading

/-! ## The first options -/

/-- Where two blocks that fit are allotted, the second one below the first, and the two markers. -/
theorem fits_allot {heap : Alloc.Heap} {n size : Nat} (h : Slam.FitsHeap heap n size) :
    ∃ image, (heap.allot n).1 = some (heap.allotAddr n + 4) ∧
      (heap.allot n).2.allot size = (some (image + 4), { heap with
        heapPtr := image,
        mem := (heap.mem.splice (heap.allotAddr n) (le32Bytes n)).splice image (le32Bytes size) }) ∧
      1024 * 1024 ≤ image + 4 ∧ image + 4 + size ≤ heap.allotAddr n := by
  have hbelow := Slam.allotAddr_add_le { heap with heapPtr := heap.allotAddr n }
    (heap.allotAddr_lt n) h.image.1
  have himage : { heap with
      heapPtr := heap.allotAddr n, mem := heap.mem.splice (heap.allotAddr n) (le32Bytes n) }.heapTop ≤
      Alloc.Heap.allotAddr { heap with
        heapPtr := heap.allotAddr n, mem := heap.mem.splice (heap.allotAddr n) (le32Bytes n) } size :=
    h.image.2
  refine ⟨_, ?_, ?_, h.high, hbelow⟩
  · rw [Alloc.Heap.allot_eq_some h.bitmap.2]
  · rw [Alloc.Heap.allot_eq_some h.bitmap.2]
    exact Alloc.Heap.allot_eq_some himage

section Opened

variable {file : List UInt8} {o : Options} {c : Client} {p : Packet}

theorem opened_bit_clear (hroom : Room c.heap (packets o.filesize o.blockSize) o.filesize)
    (hlt : packets o.filesize o.blockSize < 2 ^ 16) {b : Nat} (hb : b ≤ packets o.filesize o.blockSize) :
    bit (c.opened p o).heap.mem (c.opened p o).bitmap b = false := by
  obtain ⟨image, hfirst, hsecond, -, hbelow⟩ := fits_allot hroom.fits
  have hend := Slam.allotAddr_add_le c.heap hroom.fits.ptr_lt hroom.fits.bitmap.1
  have hptr := hroom.fits.ptr_lt
  have hclear := hroom.clear
  have hbytes : bitmapBytes (packets o.filesize o.blockSize) = (packets o.filesize o.blockSize + 7) / 8 := by
    rw [bitmapBytes, Nat.mod_eq_of_lt (by omega)]
  have hbitmap : (c.opened p o).bitmap =
      c.heap.allotAddr (bitmapBytes (packets o.filesize o.blockSize)) + 4 := by
    rw [opened_bitmap, hfirst, Option.getD_some]
  have hmem : (c.opened p o).heap.mem = memset
      (((c.heap.allot (bitmapBytes (packets o.filesize o.blockSize))).2.allot o.filesize).2.mem)
      (c.opened p o).bitmap 0 (bitmapBytes (packets o.filesize o.blockSize)) := by
    rw [opened, clearBitmap, place, opening]
  generalize bitmapBytes (packets o.filesize o.blockSize) = n at *
  have hbyte : (c.opened p o).heap.mem (addr (c.opened p o).bitmap b) = 0 := by
    rw [hmem, memset_apply]
    split
    · rfl
    · next hout =>
      -- the bit is in the byte behind the bitmap
      have haddr : addr (c.opened p o).bitmap b = c.heap.allotAddr n + 4 + n := by
        rw [addr, Nat.shiftRight_eq_div_pow, above_add (by omega)] at hout
        rw [addr, Nat.shiftRight_eq_div_pow, hbitmap]
        omega
      rw [haddr, hsecond]
      dsimp only
      rw [splice_of_ge _ _ (by rw [length_le32Bytes]; omega),
        splice_of_ge _ _ (by rw [length_le32Bytes]; omega)]
      exact hclear
  rw [bit, hbyte]
  exact Nat.zero_testBit _

/-- With room for it, the image is above the first megabyte and ends below the fourth gigabyte. -/
theorem place_image_of_room (hroom : Room c.heap (packets o.filesize o.blockSize) o.filesize) :
    1024 * 1024 ≤ (c.opening p o).place.image ∧ (c.opening p o).place.image + o.filesize ≤ 2 ^ 32 := by
  obtain ⟨image, -, hsecond, hhigh, hbelow⟩ := fits_allot hroom.fits
  have hlt := c.heap.allotAddr_lt (bitmapBytes (packets o.filesize o.blockSize))
  rw [place_image, hsecond, Option.getD_some]
  exact ⟨hhigh, by omega⟩

/-- Nothing is stored yet, and the bitmap is clear. -/
theorem opened_exact (hidle : Idle c) (hfile : o.filesize < 2 ^ 31) (hblock : o.blockSize = minPacket)
    (hroom : Room c.heap (packets o.filesize o.blockSize) o.filesize)
    (hlt : packets o.filesize o.blockSize < 2 ^ 16) : Exact (c.opened p o) := by
  have hsome : (c.heap.allot (bitmapBytes (packets o.filesize o.blockSize))).1.isSome = true := by
    rw [Alloc.Heap.allot_eq_some hroom.fits.bitmap.2]
    rfl
  refine ⟨opened_tracks hidle hfile hblock hsome (place_image_of_room hroom).1, fun b _ hle _ => ?_⟩
  exact opened_bit_clear hroom hlt hle

theorem onOack_opens (hidle : Idle c) (hw : c.status = .waiting) (hblock : o.blockSize = minPacket)
    (hhigh : 1024 * 1024 ≤ (c.opening p o).place.image) (hopts : c.options p = some (7, o)) :
    c.onOack p = (c.opened p o).acknowledge p := by
  have hne : o.blockSize ≠ 0 := by
    rw [hblock]
    decide
  rw [onOack, hopts, onOptions]
  rw [if_neg (by simp), if_neg (by rw [hidle.recvdOack]; decide), if_neg hne]
  rcases openFile_cases ((opening_status c p o).trans hw) ((opening_image c p o).trans hidle.image) p
    with ⟨hlow, -⟩ | ⟨-, hopen⟩
  · exact absurd hhigh (Nat.not_le.mpr hlow)
  · exact hopen

theorem onOack_first {options : List UInt8} (hidle : Idle c) (hw : c.status = .waiting)
    (hroom : Room c.heap (blocks file) file.length) (ho : Announces file.length options o)
    (hlt : blocks file < 2 ^ 16) (hopts : c.options p = some (7, o)) :
    Progress file o (c.onOack p) ∧ ∀ b, (c.onOack p).stored b = false := by
  have hfile : file.length < 2 ^ 31 := by
    simp only [blocks, minPacket] at hlt
    omega
  have htotal : packets o.filesize o.blockSize = blocks file := by
    rw [ho.blockSize, ho.filesize, packets_eq (by omega), blocks]
  rw [← htotal, ← ho.filesize] at hroom
  obtain ⟨hhigh, hend⟩ := place_image_of_room (p := p) hroom
  have hstored (b : Nat) : (c.opened p o).stored b = false := by
    rw [stored, opened_log, hidle.log]
    rfl
  have hload : Loading file o (c.opened p o) := by
    refine ⟨opened_exact hidle (ho.filesize ▸ hfile) ho.blockSize hroom (htotal ▸ hlt), ?_, ho.filesize, ?_,
      fun i hi hs => ?_⟩
    · rw [opened, clearBitmap, place, opening]
    · exact ho.filesize ▸ hend
    · rw [hstored] at hs
      cases hs
  have heq := onOack_opens hidle hw ho.blockSize hhigh hopts
  rw [heq]
  refine ⟨hload.acknowledge (opened_status.trans hw) p, fun b => ?_⟩
  rw [acknowledge_stored, hstored]

end Opened

/-! ## The whole transfer -/

section Whole

variable {file options : List UInt8} {o : Options} {c : Client} {p : Packet}

theorem step_packet (hw : c.status = .waiting) (hawait : c.awaitTftm p = true) :
    c.step (.packet p) = c.onPacket p := by
  rw [step, if_pos hw, turn, if_pos hawait]

theorem onPacket_oack (hop : p.opcode = opOack) : c.onPacket p = c.onOack p := by
  rw [onPacket, if_neg (by rw [hop]; decide), if_pos hop]

theorem onPacket_data (hop : p.opcode = opData) : c.onPacket p = c.onData p := by
  rw [onPacket, if_neg (by rw [hop]; decide), if_neg (by rw [hop]; decide), if_pos hop]

/-- **One packet.** The client goes on, and has just the blocks that it had and the one that came. -/
theorem step_progress {e : Event} (h : Progress file o c)
    (ho : Announces file.length options o) (hpos : 0 < file.length) (hlt : blocks file < 2 ^ 16)
    (he : Served file options c e) :
    Progress file o (c.step e) ∧ ∀ b, 1 ≤ b → b ≤ blocks file →
      ((c.step e).stored b = true ↔ c.stored b = true ∨ Brings b e) := by
  cases e with
  | timeout sent => exact he.elim
  | packet p =>
    obtain ⟨hawait, hp⟩ := he
    rcases h.status with ⟨hw, -⟩ | ⟨hpassed, hall⟩
    · rw [step_packet hw (hawait hw)]
      rcases hp with hoack | ⟨b, hb, hle, hdata⟩
      · obtain ⟨hop, -⟩ := hoack.oack
        obtain ⟨hprogress, hsame⟩ := h.toLoading.onOack hw (hoack.read_options ho hpos)
        rw [onPacket_oack hop]
        refine ⟨hprogress, fun b _ _ => ?_⟩
        rw [hsame, Brings, hop]
        exact ⟨Or.inl, fun hor => hor.elim id (fun h => by cases h.1)⟩
      · obtain ⟨hop, hnum, -⟩ := hdata.data (by omega)
        obtain ⟨hprogress, hmore⟩ := h.toLoading.onData hw hb hle hlt hdata
        rw [onPacket_data hop]
        refine ⟨hprogress, fun b' hb' _ => ?_⟩
        rw [hmore b' hb', Brings, hnum]
        exact or_congr_right ⟨fun heq => ⟨hop, heq.symm⟩, fun h => h.2.symm⟩
    · have hstay : c.step (.packet p) = c := by
        rw [step, if_neg (by rw [hpassed]; simp)]
      rw [hstay]
      exact ⟨h, fun b hb hle => ⟨Or.inl, fun _ => hall b hb hle⟩⟩

theorem run_progress {es : List Event} (ho : Announces file.length options o) (hpos : 0 < file.length)
    (hlt : blocks file < 2 ^ 16) :
    ∀ {c : Client}, Progress file o c → AllSteps step (Served file options) c es →
      Progress file o (c.run es) ∧ ∀ b, 1 ≤ b → b ≤ blocks file →
        ((c.run es).stored b = true ↔ c.stored b = true ∨ ∃ e ∈ es, Brings b e) := by
  induction es with
  | nil =>
    intro c h _
    refine ⟨h, fun b _ _ => ⟨Or.inl, fun hor => hor.resolve_right (fun hex => ?_)⟩⟩
    obtain ⟨e, he, -⟩ := hex
    cases he
  | cons e es ih =>
    intro c h hes
    obtain ⟨hstep, hstored⟩ := step_progress h ho hpos hlt hes.1
    obtain ⟨hrun, hrest⟩ := ih hstep hes.2
    refine ⟨hrun, fun b hb hle => ?_⟩
    show ((c.step e).run es).stored b = true ↔ _
    rw [hrest b hb hle, hstored b hb hle, or_assoc]
    simp only [List.mem_cons, exists_eq_or_imp]

/-- **A file sent by multicast arrives.** As long as a block is missing the client waits, with just the
    blocks stored that have come; with the last one it passes on the file. -/
theorem transfer_complete (cfg : Config) (heap : Alloc.Heap) (iport : UInt16) (u : Store)
    (hsize : 1 ≤ file.length ∧ file.length ≤ 65534 * 1024) (hroom : Room heap (blocks file) file.length)
    (ho : Announces file.length options o) (first : Packet) (hfirst : Carries first (oackPayload options))
    (es : List Event)
    (hes : AllSteps Client.step (Served file options) (Client.start cfg heap iport u)
      (.packet first :: es)) :
    let c := (Client.start cfg heap iport u).run (.packet first :: es)
    ((∃ b, 1 ≤ b ∧ b ≤ blocks file ∧ ¬ ∃ e ∈ es, Brings b e) →
        c.status = .waiting ∧ ∀ b, 1 ≤ b → b ≤ blocks file →
          (c.stored b = true ↔ ∃ e ∈ es, Brings b e)) ∧
      ((∀ b, 1 ≤ b → b ≤ blocks file → ∃ e ∈ es, Brings b e) →
        c.status = .passed c.image file.length ∧ c.heap.mem.slice c.image file.length = file) := by
  have hlt : blocks file < 2 ^ 16 := by
    simp only [blocks, minPacket]
    omega
  obtain ⟨hw, hidle⟩ := start_idle cfg heap iport u
  obtain ⟨hop, -⟩ := hfirst.oack
  obtain ⟨hprogress, hnone⟩ := onOack_first hidle hw hroom ho hlt
    (hfirst.read_options ho (by omega))
  rw [← onPacket_oack hop, ← step_packet hw (hes.1.1 hw)] at hprogress hnone
  obtain ⟨hrun, hstored⟩ := run_progress ho (by omega) hlt hprogress hes.2
  intro c
  have hbrought (b : Nat) (hb : 1 ≤ b) (hle : b ≤ blocks file) :
      c.stored b = true ↔ ∃ e ∈ es, Brings b e := by
    refine (hstored b hb hle).trans ⟨fun hor => hor.resolve_left ?_, Or.inr⟩
    rw [hnone]
    decide
  refine ⟨fun hex => ⟨?_, hbrought⟩, fun hall => ?_⟩
  · obtain ⟨b, hb, hle, hmissing⟩ := hex
    rcases hrun.status with ⟨hwait, -⟩ | ⟨-, hstored'⟩
    · exact hwait
    · exact absurd ((hbrought b hb hle).mp (hstored' b hb hle)) hmissing
  · rcases hrun.status with ⟨-, b, hb, hle, hmissing⟩ | ⟨hpassed, -⟩
    · have hthere := (hbrought b hb hle).mpr (hall b hb hle)
      cases hthere.symm.trans hmissing
    · refine ⟨hpassed, List.ext_get (by simp) (fun i hi hi' => ?_)⟩
      have hblock : i / minPacket + 1 ≤ blocks file :=
        Nat.succ_le_succ (Nat.div_le_div_right (Nat.le_of_lt hi'))
      have hbyte := hrun.content i hi' ((hbrought _ (Nat.le_add_left ..) hblock).mpr (hall _ (Nat.le_add_left ..) hblock))
      simp only [slice, List.get_eq_getElem, List.getElem_map, List.getElem_range]
      exact hbyte

end Whole

/-- The options of `smallOack`. -/
def smallOptions (tsize : String) : List UInt8 :=
  Text.bytes "tsize" ++ 0 :: Text.bytes tsize ++ 0 :: Text.bytes "blksize" ++ 0 :: Text.bytes "1024" ++
    0 :: Text.bytes "multicast" ++ 0 :: Text.bytes "239.1.1.1,1758,1" ++ [0]

/-- A file of two blocks. -/
def smallFile : List UInt8 := List.replicate 1024 0 ++ [1, 2]

theorem smallOptions_announces :
    Announces smallFile.length (smallOptions "1026") ⟨1026, 1024, 0xef010101, 1758, true⟩ := by
  have hone : Digits 1 [49] := .of_all rfl rfl rfl
  have hdotted : Dotted 3 0 0xef010101 (bytes "239.1.1.1") :=
    ⟨239, [50, 51, 57], bytes "1.1.1", .of_all rfl rfl rfl, by decide, rfl,
      1, [49], bytes "1.1", hone, by decide, rfl, 1, [49], bytes "1", hone, by decide, rfl,
      1, hone, by decide, rfl⟩
  have hlength : smallFile.length = 1026 := by rw [smallFile, List.length_append, List.length_replicate]; rfl
  rw [hlength]
  refine ⟨rfl, rfl, by decide, [.tsize 1026, .blksize, .multicast 0xef010101 1758 true], ?_, .refl _⟩
  refine ⟨bytes "tsize" ++ 0 :: (bytes "1026" ++ [0]), _, rfl,
    ⟨by decide, _, _, rfl, rfl, .of_all rfl rfl rfl⟩,
    bytes "blksize" ++ 0 :: (bytes "1024" ++ [0]), _, rfl,
    ⟨_, _, rfl, rfl, .of_all rfl rfl rfl⟩,
    bytes "multicast" ++ 0 :: bytes "239.1.1.1,1758,1" ++ [0], [], rfl,
    ⟨by decide, bytes "239.1.1.1", bytes "1758", hdotted,
      .of_all rfl rfl rfl, rfl⟩,
    rfl⟩

theorem smallPacket_carries {bs : List UInt8} (h : 8 + bs.length < 2 ^ 16) : Carries (smallPacket bs) bs :=
  ⟨slice_splice_self .., by rw [smallPacket, UInt16.toNat_ofNat', Nat.mod_eq_of_lt h], Nat.le_refl _⟩

/-- The second block comes before the first one. -/
def smallEvents : List Event :=
  [.packet (smallPacket (oackPayload (smallOptions "1026"))), .packet (smallPacket (dataPayload smallFile 2)),
    .packet (smallPacket (dataPayload smallFile 1))]

theorem small_file_arrives :
    AllSteps Client.step (Served smallFile (smallOptions "1026")) smallClient smallEvents ∧
      (smallClient.run smallEvents).status = .passed (smallClient.run smallEvents).image 1026 ∧
      (smallClient.run smallEvents).heap.mem.slice (smallClient.run smallEvents).image 1026 = smallFile := by
  have hlength : smallFile.length = 1026 := by rw [smallFile, List.length_append, List.length_replicate]; rfl
  have hblocks : blocks smallFile = 2 := by rw [blocks, hlength]; rfl
  have hoack : Carries _ (oackPayload (smallOptions "1026")) := smallPacket_carries (by decide)
  have hdata (b : Nat) : Carries _ (dataPayload smallFile b) := smallPacket_carries (by
    have hhead : ([0, 3] ++ be16Bytes b).length = 4 := rfl
    rw [dataPayload, List.length_append, hhead, length_piece, hlength]
    omega)
  have hroom : Room ⟨0x400000, 0x100000, 0x400000, fun _ => 0⟩ (blocks smallFile) smallFile.length := by
    rw [hblocks, hlength]
    exact ⟨⟨by decide, by decide, by decide, by decide⟩, rfl⟩
  have hes : AllSteps step (Served smallFile (smallOptions "1026")) smallClient smallEvents :=
    ⟨⟨fun _ => by decide +kernel, Or.inl hoack⟩,
      ⟨fun _ => by decide +kernel, Or.inr ⟨2, by decide, hblocks.ge, hdata 2⟩⟩,
      ⟨fun _ => by decide +kernel, Or.inr ⟨1, by decide, by omega, hdata 1⟩⟩, trivial⟩
  refine ⟨hes, ?_⟩
  rw [← hlength, smallClient, smallEvents]
  refine (transfer_complete _ _ _ _ (by rw [hlength]; decide) hroom smallOptions_announces _ hoack _ hes).2
    (fun b hb hle => ?_)
  obtain ⟨hop, hblock, -⟩ := (hdata b).data (by omega)
  refine ⟨.packet (smallPacket (dataPayload smallFile b)), ?_, hop, hblock⟩
  obtain rfl | rfl : b = 1 ∨ b = 2 := by omega
  · exact List.mem_cons_of_mem _ (List.mem_singleton_self _)
  · exact List.mem_cons_self ..

end Tftm
