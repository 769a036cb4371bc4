import Etherboot.Tftm.Client

set_option autoImplicit false

/-! # Bitmap, image and block size

Every access of the client to its bitmap and its image should be inside what it has allotted, and the
block size it divides by should not be zero. This depends on the packets:

* data with the block number 0 divides by zero when no options have come yet, and is stored in front
  of the image afterwards;
* the bitmap has `total_packets` bits, with those that fill the last byte, but the bits up to
  `total_packets + 1` are used, so that it is too short when `total_packets` is 0 or 7 modulo 8;
* options that come later change `filesize`, not the room for the image.

`accesses_inside_iff` says that these, and a heap without room for the bitmap, are all the ways in
which it fails. -/

namespace Tftm

open Memory Client
open Tftp (opData opOack)

/-- The access is inside what is allotted, a copy also inside the first `filesize` bytes. -/
def Access.Inside : Access → Prop
  | .bit i allotted => i / 8 < allotted
  | .clear n allotted => n ≤ allotted
  | .copy offset n filesize allotted => n = 0 ∨ (offset + n ≤ filesize ∧ offset + n ≤ allotted)

instance (a : Access) : Decidable a.Inside :=
  match a with
  | .bit _ _ => inferInstanceAs (Decidable (_ < _))
  | .clear _ _ => inferInstanceAs (Decidable (_ ≤ _))
  | .copy _ _ _ _ => inferInstanceAs (Decidable (_ ∨ _))

/-- No division by zero so far, and no access outside. -/
@[mk_iff] structure Safe (c : Client) : Prop where
  noFault : c.status ≠ .fault
  inside : ∀ a ∈ c.log, a.Inside

instance (c : Client) : Decidable (Safe c) := decidable_of_iff' _ (safe_iff ..)

/-! ## The condition -/

/-- Options that open a transfer. -/
def announcedBy (recvdOack : Bool) : Option (Int × Options) → Option Options
  | none => none
  | some (i, opts) => if i = 7 ∧ recvdOack = false then some opts else none

def Client.announced (c : Client) (p : Packet) : Option Options :=
  announcedBy c.recvdOack (c.options p)

/-- If there is a place for the image, there is one for the bitmap, and it has the bits up to
    `total_packets + 1`. -/
def OptionsProper (c : Client) (opts : Options) : Prop :=
  let total := Client.packets opts.filesize opts.blockSize
  let bitmap := c.heap.allot (Client.bitmapBytes total)
  1024 * 1024 ≤ (bitmap.2.allot opts.filesize).1.getD 0 →
    bitmap.1.isSome = true ∧ total % 8 ≠ 0 ∧ total % 8 ≠ 7
  deriving Decidable

/-- A block that will be stored: it has the length expected and is not there yet. -/
@[mk_iff] structure Wanted (c : Client) (p : Packet) : Prop where
  number : p.block ≤ c.totalPackets
  udpLen : p.udpLen.toNat = c.expected p.block + 12
  packetlen : c.expected p.block + (14 + 20 + 8 + 4) ≤ p.packetlen
  missing : Bitmap.bit c.heap.mem c.bitmap p.block = false

instance (c : Client) (p : Packet) : Decidable (Wanted c p) := decidable_of_iff' _ (wanted_iff ..)

/-- A block that has a place: not the number 0, and the `filesize` of now has not become too small for
    it or, if it is the last one, larger than the room for it. -/
def HasPlace (c : Client) (block : Nat) : Prop :=
  block ≠ 0 ∧ (block < c.totalPackets → block * minPacket ≤ c.opts.filesize) ∧
    (block = c.totalPackets → c.opts.filesize % minPacket = 0 ∨
      ((c.totalPackets - 1) * minPacket ≤ c.opts.filesize ∧
        c.opts.filesize % minPacket ≤ c.imageLen % minPacket))
  deriving Decidable

/-- Data come after the options, at least those with block number 0, and have a place. -/
def DataProper (c : Client) (p : Packet) : Prop :=
  if c.recvdOack then Wanted c p → HasPlace c p.block else p.dataLen ≤ minPacket → p.block ≠ 0
  deriving Decidable

/-- The condition on a packet. -/
@[mk_iff] structure PacketProper (c : Client) (p : Packet) : Prop where
  options : p.opcode = opOack → ∀ opts ∈ c.announced p, OptionsProper c opts
  data : p.opcode = opData → DataProper c p

instance (c : Client) (p : Packet) : Decidable (PacketProper c p) :=
  decidable_of_iff' _ (packetProper_iff ..)

/-- The condition on an event: a packet that the client waits for is a proper one. -/
def Proper (c : Client) : Event → Prop
  | .timeout _ => True
  | .packet p => c.status = .waiting → c.awaitTftm p = true → PacketProper c p

instance (c : Client) (e : Event) : Decidable (Proper c e) :=
  match e with
  | .timeout _ => inferInstanceAs (Decidable True)
  | .packet _ => inferInstanceAs (Decidable (_ → _ → _))

/-! ## The end of a turn -/

/-- The variables of a transfer stay as they are. -/
structure Keeps (c c' : Client) : Prop where
  opts : c'.opts = c.opts
  totalPackets : c'.totalPackets = c.totalPackets
  receivedPackets : c'.receivedPackets = c.receivedPackets
  image : c'.image = c.image
  bitmap : c'.bitmap = c.bitmap
  recvdOack : c'.recvdOack = c.recvdOack
  bitmapLen : c'.bitmapLen = c.bitmapLen
  imageLen : c'.imageLen = c.imageLen

/-- Nothing of interest happens but the sending of packets. -/
structure Quiet (c c' : Client) : Prop extends Keeps c c' where
  log : c'.log = c.log
  mem : c'.heap.mem = c.heap.mem

theorem Keeps.refl (c : Client) : Keeps c c := ⟨rfl, rfl, rfl, rfl, rfl, rfl, rfl, rfl⟩

theorem Quiet.refl (c : Client) : Quiet c c := ⟨.refl c, rfl, rfl⟩

variable {c c' : Client} {p : Packet}

theorem Keeps.trans {c'' : Client} (h : Keeps c c') (h' : Keeps c' c'') : Keeps c c'' :=
  ⟨h'.opts.trans h.opts, h'.totalPackets.trans h.totalPackets,
    h'.receivedPackets.trans h.receivedPackets, h'.image.trans h.image, h'.bitmap.trans h.bitmap,
    h'.recvdOack.trans h.recvdOack, h'.bitmapLen.trans h.bitmapLen, h'.imageLen.trans h.imageLen⟩

theorem Quiet.trans {c'' : Client} (h : Quiet c c') (h' : Quiet c' c'') : Quiet c c'' :=
  ⟨h.toKeeps.trans h'.toKeeps, h'.log.trans h.log, h'.mem.trans h.mem⟩

theorem sendAck_quiet (c : Client) (oport : UInt16) : Quiet c (c.sendAck oport) := by
  rw [sendAck, transmit]
  exact ⟨⟨rfl, rfl, rfl, rfl, rfl, rfl, rfl, rfl⟩, rfl, rfl⟩

theorem forget_mem (h : Alloc.Heap) (ptr : Option Nat) : (h.forget ptr).mem = h.mem := by
  cases ptr <;> rfl

theorem complete_quiet (c : Client) (oport : UInt16) : Quiet c (c.complete oport) := by
  have hack : Quiet c (if c.opts.ismaster then c
      else { c with tp := c.tp.ackBlock c.totalPackets }.sendAck oport) := by
    split
    · exact .refl c
    · have hput : Quiet c { c with tp := c.tp.ackBlock c.totalPackets } :=
        ⟨⟨rfl, rfl, rfl, rfl, rfl, rfl, rfl, rfl⟩, rfl, rfl⟩
      exact hput.trans (sendAck_quiet _ oport)
  rw [complete]
  generalize (if c.opts.ismaster then c
    else { c with tp := c.tp.ackBlock c.totalPackets }.sendAck oport) = c₁ at hack
  exact hack.trans ⟨⟨rfl, rfl, rfl, rfl, rfl, rfl, rfl, rfl⟩, rfl, forget_mem ..⟩

theorem complete_status (c : Client) (oport : UInt16) :
    (c.complete oport).status = .passed c.image c.opts.filesize := by
  rw [complete]
  cases c.opts.ismaster <;> rfl

/-- The client has looked for the first block missing, if it has not counted too many. -/
def Client.looked (c : Client) : Client :=
  if c.receivedPackets ≤ c.totalPackets then c.findMissing else c

section

variable (c : Client)

theorem looked_keeps : Keeps c c.looked := by
  rw [looked]
  split
  · rw [findMissing]
    exact ⟨rfl, rfl, rfl, rfl, rfl, rfl, rfl, rfl⟩
  · exact .refl c

theorem answer_quiet (oport : UInt16) : Quiet c.looked (c.answer oport) := by
  rw [answer, ← looked]
  split
  · exact sendAck_quiet ..
  · exact .refl _

theorem looked_status : c.looked.status = c.status := by
  rw [looked]
  split
  · rw [findMissing]
  · rfl

theorem answer_status (oport : UInt16) : (c.answer oport).status = c.status := by
  rw [answer, ← looked]
  split
  · rw [sendAck, transmit]
    exact looked_status c
  · exact looked_status c

theorem acknowledge_quiet (p : Packet) : Quiet c.looked (c.acknowledge p) := by
  refine (answer_quiet c p.src).trans ?_
  rw [acknowledge]
  generalize c.answer p.src = c₁
  split
  · exact complete_quiet ..
  · split
    · exact .refl c₁
    · exact ⟨⟨rfl, rfl, rfl, rfl, rfl, rfl, rfl, rfl⟩, rfl, rfl⟩

theorem acknowledge_keeps (p : Packet) : Keeps c (c.acknowledge p) :=
  (looked_keeps c).trans (acknowledge_quiet c p).toKeeps

/-- The loop ends when all blocks have been counted. -/
theorem acknowledge_status (p : Packet) :
    (c.acknowledge p).status =
      if c.receivedPackets = c.totalPackets then .passed c.image c.opts.filesize else c.status := by
  have hkeeps := (looked_keeps c).trans (answer_quiet c p.src).toKeeps
  have hstatus := answer_status c p.src
  rw [acknowledge]
  rw [hkeeps.receivedPackets, hkeeps.totalPackets]
  split
  · rw [complete_status, hkeeps.image, hkeeps.opts]
  · split
    · exact hstatus
    · exact hstatus

end

/-! ## Which bits are looked at -/

theorem mem_scanned {bit : Nat → Bool} {n : Nat} : ∀ {b i : Nat}, i ∈ scanned bit n b → i < b + n := by
  induction n with
  | zero => intro b i h; cases h
  | succ n ih =>
    intro b i h
    rw [scanned] at h
    split at h
    · rcases List.mem_cons.mp h with rfl | h
      · omega
      · have := ih h
        omega
    · obtain rfl := List.mem_singleton.mp h
      omega

/-- The bitmap has the bits up to `total_packets + 1`, if they are looked at. -/
def Client.BitsFit (c : Client) : Prop :=
  c.receivedPackets ≤ c.totalPackets → (c.totalPackets + 1) / 8 < c.bitmapLen

theorem looked_inside_iff (c : Client) :
    (∀ a ∈ c.looked.log, a.Inside) ↔ (∀ a ∈ c.log, a.Inside) ∧ c.BitsFit := by
  rw [looked, BitsFit]
  by_cases hle : c.receivedPackets ≤ c.totalPackets
  · rw [if_pos hle, findMissing]
    simp only [List.forall_mem_append, List.forall_mem_map, List.forall_mem_cons, Access.Inside]
    refine and_congr_right (fun _ => ⟨fun h _ => h.2.1, fun h => ?_⟩)
    have hfit := h hle
    refine ⟨by omega, hfit, fun i hi => ?_⟩
    have := mem_scanned hi
    omega
  · rw [if_neg hle]
    exact ⟨fun h => ⟨h, fun hle' => absurd hle' hle⟩, fun h => h.1⟩

/-- The end of a turn is safe if and only if the bitmap has the bits that are looked at. -/
theorem acknowledge_safe_iff (hstatus : c.status ≠ .fault) (p : Packet) :
    Safe (c.acknowledge p) ↔ (∀ a ∈ c.log, a.Inside) ∧ c.BitsFit := by
  rw [← looked_inside_iff, ← (acknowledge_quiet c p).log]
  refine ⟨Safe.inside, fun h => ⟨?_, h⟩⟩
  rw [acknowledge_status]
  split
  · simp
  · exact hstatus

/-! ## The invariant -/

/-- No options have come yet. -/
structure Fresh (c : Client) : Prop where
  recvdOack : c.recvdOack = false
  totalPackets : c.totalPackets = 0
  receivedPackets : c.receivedPackets = 0
  image : c.image = 0
  blockSize : c.opts.blockSize = 0
  filesize : c.opts.filesize < 2 ^ 32

/-- The options have come, and there is room for all blocks and their bits. -/
structure Open (c : Client) : Prop where
  recvdOack : c.recvdOack = true
  blockSize : c.opts.blockSize = minPacket
  filesize : c.opts.filesize < 2 ^ 32
  totalPackets : c.totalPackets = c.imageLen / minPacket + 1
  imageLen : c.imageLen < 2 ^ 32
  bits : (c.totalPackets + 1) / 8 < c.bitmapLen

structure Inv (c : Client) : Prop extends Safe c where
  waiting : c.status = .waiting → Fresh c ∨ Open c

theorem Open.keeps (h : Open c) (hk : Keeps c c') : Open c' :=
  ⟨hk.recvdOack.trans h.recvdOack, hk.opts ▸ h.blockSize, hk.opts ▸ h.filesize,
    by rw [hk.totalPackets, hk.imageLen]; exact h.totalPackets, hk.imageLen ▸ h.imageLen,
    by rw [hk.totalPackets, hk.bitmapLen]; exact h.bits⟩

/-- With room for the bits the end of a turn is safe. -/
theorem Open.acknowledge (h : Open c) (hstatus : c.status ≠ .fault)
    (hlog : ∀ a ∈ c.log, a.Inside) (p : Packet) : Inv (c.acknowledge p) :=
  ⟨(acknowledge_safe_iff hstatus p).mpr ⟨hlog, fun _ => h.bits⟩,
    fun _ => Or.inr (h.keeps (acknowledge_keeps c p))⟩

/-! ## Data -/

/-- The copy of a block is inside the image if and only if the block has a place. -/
theorem copy_inside_iff (h : Open c) {block : Nat} (hblock : block ≤ c.totalPackets)
    (hlt : block < 2 ^ 16) :
    (Access.copy (wsub block 1 * c.opts.blockSize % 2 ^ 32)
        (min (c.expected block) c.opts.blockSize) c.opts.filesize c.imageLen).Inside ↔
      HasPlace c block := by
  have htotal := h.totalPackets
  have hfs := h.filesize
  rw [Access.Inside, HasPlace, expected, h.blockSize]
  simp only [minPacket] at htotal ⊢
  rcases Nat.eq_zero_or_pos block with rfl | hpos
  · rw [if_pos (by omega)]
    simp only [wsub]
    omega
  · rw [wsub_of_le hpos (by omega)]
    by_cases hlast : block = c.totalPackets
    · rw [if_neg (not_not.mpr hlast)]
      omega
    · rw [if_pos hlast]
      omega

/-- The block has the number and the length expected, whether it is there or not. -/
structure Expected (c : Client) (p : Packet) : Prop where
  dataLen : p.dataLen ≤ minPacket
  number : p.block ≤ c.totalPackets
  divides : ¬ (p.block = c.totalPackets ∧ c.opts.blockSize = 0)
  udpLen : p.udpLen.toNat = c.expected p.block + 12
  packetlen : c.expected p.block + (14 + 20 + 8 + 4) ≤ p.packetlen

/-- What a turn with data does. -/
inductive DataTurn (c : Client) (p : Packet) : Client → Prop where
  | ignored {c₁ : Client} (hq : Quiet c c₁) (hs : c₁.status = c.status) (hnot : ¬ Expected c p)
      (hfault : ¬ (p.dataLen ≤ minPacket ∧ p.block = c.totalPackets ∧ c.opts.blockSize = 0)) :
      DataTurn c p c₁
  | fault {c₁ : Client} (hs : c₁.status = .fault)
      (hfault : p.dataLen ≤ minPacket ∧ p.block = c.totalPackets ∧ c.opts.blockSize = 0) :
      DataTurn c p c₁
  | duplicate {c₁ : Client} (hq : Quiet c c₁) (hs : c₁.status = c.status) (hexp : Expected c p)
      (hbit : Bitmap.bit c.heap.mem c.bitmap p.block = true) :
      DataTurn c p ((c₁.looksAt p.block).acknowledge p)
  | stored {c₁ : Client} (hq : Quiet c c₁) (hs : c₁.status = c.status) (hexp : Expected c p)
      (hbit : Bitmap.bit c.heap.mem c.bitmap p.block = false) :
      DataTurn c p (((c₁.looksAt p.block).store p p.block).acknowledge p)

theorem Keeps.expected (h : Keeps c c') (block : Nat) : c'.expected block = c.expected block := by
  rw [Client.expected, Client.expected, h.totalPackets, h.opts]

/-- The work on data: the block's number is noted, and then the packet is dropped, divides by zero, is
    there already, or is stored. -/
theorem onData_eq (c : Client) (p : Packet) :
    ∃ c₁, Quiet c c₁ ∧ c₁.status = c.status ∧ c₁.sent = c.sent ∧
      ((c.onData p = c₁ ∧ ¬ Expected c p ∧
          ¬ (p.dataLen ≤ minPacket ∧ p.block = c.totalPackets ∧ c.opts.blockSize = 0)) ∨
        (c.onData p = { c₁ with status := .fault } ∧
          p.dataLen ≤ minPacket ∧ p.block = c.totalPackets ∧ c.opts.blockSize = 0) ∨
        (Expected c p ∧
          ((Bitmap.bit c.heap.mem c.bitmap p.block = true ∧
              c.onData p = (c₁.looksAt p.block).acknowledge p) ∨
            (Bitmap.bit c.heap.mem c.bitmap p.block = false ∧
              c.onData p = ((c₁.looksAt p.block).store p p.block).acknowledge p)))) := by
  rw [onData]
  split
  · next hlen =>
    have hq : Quiet c { c with len := p.dataLen } := ⟨⟨rfl, rfl, rfl, rfl, rfl, rfl, rfl, rfl⟩, rfl, rfl⟩
    exact ⟨_, hq, rfl, rfl, Or.inl ⟨rfl, fun h => Nat.not_lt.mpr h.dataLen hlen,
      fun h => Nat.not_lt.mpr h.1 hlen⟩⟩
  · next hlen =>
    have hq : Quiet c { c with len := p.dataLen, block := p.block, tp := c.tp.ackBlock p.block } :=
      ⟨⟨rfl, rfl, rfl, rfl, rfl, rfl, rfl, rfl⟩, rfl, rfl⟩
    generalize hc₁ : { c with len := p.dataLen, block := p.block, tp := c.tp.ackBlock p.block } = c₁
      at hq
    have hblock : c₁.block = p.block := by rw [← hc₁]
    refine ⟨c₁, hq, by rw [← hc₁], by rw [← hc₁], ?_⟩
    rw [onBlock, hblock, hq.toKeeps.expected, hq.totalPackets, hq.opts, hq.mem, hq.bitmap]
    split
    · next hnum =>
      exact Or.inl ⟨rfl, fun h => Nat.not_lt.mpr h.number hnum,
        fun h => Nat.not_lt.mpr (Nat.le_of_eq h.2.1) hnum⟩
    · next hnum =>
      split
      · next hfault => exact Or.inr (Or.inl ⟨rfl, Nat.not_lt.mp hlen, hfault⟩)
      · next hfault =>
        split
        · next hudp => exact Or.inl ⟨rfl, fun h => hudp h.udpLen, fun h => hfault h.2⟩
        · next hudp =>
          split
          · next hshort =>
            exact Or.inl ⟨rfl, fun h => Nat.not_lt.mpr h.packetlen hshort, fun h => hfault h.2⟩
          · next hshort =>
            have hexp : Expected c p :=
              ⟨Nat.not_lt.mp hlen, Nat.not_lt.mp hnum, hfault, not_not.mp hudp, Nat.not_lt.mp hshort⟩
            refine Or.inr (Or.inr ⟨hexp, ?_⟩)
            split
            · next hbit => exact Or.inl ⟨hbit, rfl⟩
            · next hbit => exact Or.inr ⟨Bool.eq_false_iff.mpr hbit, rfl⟩

theorem onData_turn (c : Client) (p : Packet) : DataTurn c p (c.onData p) := by
  obtain ⟨c₁, hq, hs, -, ⟨heq, hnot, hfault⟩ | ⟨heq, hfault⟩ | ⟨hexp, ⟨hbit, heq⟩ | ⟨hbit, heq⟩⟩⟩ :=
    onData_eq c p
  · rw [heq]
    exact .ignored hq hs hnot hfault
  · rw [heq]
    exact .fault rfl hfault
  · rw [heq]
    exact .duplicate hq hs hexp hbit
  · rw [heq]
    exact .stored hq hs hexp hbit

theorem looksAt_keeps (c : Client) (i : Nat) : Keeps c (c.looksAt i) :=
  ⟨rfl, rfl, rfl, rfl, rfl, rfl, rfl, rfl⟩

theorem Wanted.expected (h : Open c) (hw : Wanted c p) : Expected c p := by
  have hle : c.expected p.block ≤ minPacket := by
    rw [Client.expected, h.blockSize]
    split
    · exact Nat.le_refl _
    · exact Nat.le_of_lt (Nat.mod_lt _ (by decide))
  refine ⟨?_, hw.number, fun hdiv => ?_, hw.udpLen, hw.packetlen⟩
  · rw [Packet.dataLen, hw.udpLen]
    omega
  · rw [h.blockSize] at hdiv
    cases hdiv.2

theorem Fresh.quiet (h : Fresh c) (hk : Quiet c c') : Fresh c' :=
  ⟨hk.recvdOack.trans h.recvdOack, hk.totalPackets.trans h.totalPackets,
    hk.receivedPackets.trans h.receivedPackets, hk.image.trans h.image, hk.opts ▸ h.blockSize,
    hk.opts ▸ h.filesize⟩

theorem Inv.quiet (h : Inv c) (hw : c.status = .waiting) (hk : Quiet c c')
    (hs : c'.status ≠ .fault) : Inv c' := by
  refine ⟨⟨hs, hk.log ▸ h.inside⟩, fun _ => ?_⟩
  rcases h.waiting hw with hfresh | hopen
  · exact Or.inl (hfresh.quiet hk)
  · exact Or.inr (hopen.keeps hk.toKeeps)

/-- Before the options have come, data with the block number 0 are the only ones that do harm. -/
theorem onData_fresh (hi : Inv c) (hw : c.status = .waiting) (h : Fresh c) (p : Packet) :
    (DataProper c p → Inv (c.onData p)) ∧ (Safe (c.onData p) → DataProper c p) := by
  have hproper : DataProper c p ↔ (p.dataLen ≤ minPacket → p.block ≠ 0) := by
    rw [DataProper, h.recvdOack]
    exact Iff.rfl
  have hblock (hexp : Expected c p) : p.block = c.totalPackets ∧ c.opts.blockSize = 0 :=
    ⟨Nat.le_antisymm hexp.number (h.totalPackets ▸ Nat.zero_le _), h.blockSize⟩
  have hturn := onData_turn c p
  rw [hproper]
  generalize c.onData p = c' at hturn
  cases hturn with
  | ignored hq hs _ hfault =>
    refine ⟨fun _ => hi.quiet hw hq (hs ▸ hi.noFault), fun _ hlen hzero => hfault ?_⟩
    exact ⟨hlen, hzero.trans h.totalPackets.symm, h.blockSize⟩
  | fault hs hfault =>
    refine ⟨fun hp => ?_, fun hsafe => absurd hs hsafe.noFault⟩
    exact absurd (hfault.2.1.trans h.totalPackets) (hp hfault.1)
  | duplicate _ _ hexp _ => exact absurd (hblock hexp) hexp.divides
  | stored _ _ hexp _ => exact absurd (hblock hexp) hexp.divides

/-- After the options have come, data are handled safely if and only if those that are stored have a
    place. -/
theorem onData_open (hi : Inv c) (hw : c.status = .waiting) (h : Open c) (p : Packet) :
    (DataProper c p → Inv (c.onData p)) ∧ (Safe (c.onData p) → DataProper c p) := by
  have hproper : DataProper c p ↔ (Wanted c p → HasPlace c p.block) := by
    rw [DataProper, if_pos h.recvdOack]
  have hbit (hexp : Expected c p) : (Access.bit p.block c.bitmapLen).Inside := by
    have := hexp.number
    have := h.bits
    rw [Access.Inside]
    omega
  have hturn := onData_turn c p
  rw [hproper]
  generalize c.onData p = c' at hturn
  cases hturn with
  | ignored hq hs hnot _ =>
    exact ⟨fun _ => hi.quiet hw hq (hs ▸ hi.noFault), fun _ hwanted => absurd (hwanted.expected h) hnot⟩
  | fault _ hfault =>
    rw [h.blockSize] at hfault
    cases hfault.2.2
  | @duplicate c₁ hq hs hexp hset =>
    have hopen : Open (c₁.looksAt p.block) :=
      h.keeps (hq.toKeeps.trans (looksAt_keeps c₁ p.block))
    have hlog : ∀ a ∈ (c₁.looksAt p.block).log, a.Inside := by
      rw [looksAt, hq.log, hq.bitmapLen]
      simp only [List.forall_mem_append, List.forall_mem_singleton]
      exact ⟨hi.inside, hbit hexp⟩
    refine ⟨fun _ => hopen.acknowledge (hs ▸ hi.noFault) hlog p, fun _ hwanted => ?_⟩
    cases hset.symm.trans hwanted.missing
  | @stored c₁ hq hs hexp hclear =>
    have hopen := h.keeps hq.toKeeps
    have hopen' : Open ((c₁.looksAt p.block).store p p.block) :=
      ⟨hopen.1, hopen.2, hopen.3, hopen.4, hopen.5, hopen.6⟩
    have hplace := copy_inside_iff h hexp.number (be16_lt ..)
    have hlog : (∀ a ∈ ((c₁.looksAt p.block).store p p.block).log, a.Inside) ↔ HasPlace c p.block := by
      rw [← hplace, store, (hq.toKeeps.trans (looksAt_keeps c₁ p.block)).expected]
      simp only [looksAt, List.forall_mem_append, List.forall_mem_cons, List.not_mem_nil,
        false_imp_iff, implies_true, and_true, hq.log, hq.bitmapLen, hq.opts, hq.imageLen]
      exact ⟨fun hall => hall.2.2, fun hcopy => ⟨⟨hi.inside, hbit hexp⟩, hbit hexp, hcopy⟩⟩
    have hwanted : Wanted c p := ⟨hexp.number, hexp.udpLen, hexp.packetlen, hclear⟩
    have hfault : ((c₁.looksAt p.block).store p p.block).status ≠ .fault := by
      rw [store, looksAt]
      exact hs ▸ hi.noFault
    refine ⟨fun hp => hopen'.acknowledge hfault (hlog.mpr (hp hwanted)) p, fun hsafe _ => ?_⟩
    exact hlog.mp ((acknowledge_safe_iff hfault p).mp hsafe).1

/-! ## Options -/

theorem packets_eq {filesize : Nat} (h : filesize < 2 ^ 32) :
    packets filesize minPacket = filesize / minPacket + 1 := by
  simp only [packets, minPacket]
  omega

/-- The client with the options of a new transfer. -/
def Client.opening (c : Client) (p : Packet) (opts : Options) : Client :=
  { c with
    opts := opts, len := p.optionLen, totalPackets := Client.packets opts.filesize opts.blockSize }

section

variable (c : Client) (p : Packet) (opts : Options)

theorem opening_status :
    (c.opening p opts).status = c.status := by
  rw [opening]

theorem opening_image : (c.opening p opts).image = c.image := by
  rw [opening]

theorem opening_log : (c.opening p opts).log = c.log := by
  rw [opening]

end

/-- What a turn with options does. -/
inductive OackTurn (c : Client) (p : Packet) : Client → Prop where
  | ended {c' : Client} (hs : c'.status = .returned ∨ c'.status = .hung) (hlog : c'.log = c.log)
      (hnone : ∀ opts ∈ c.announced p, (c.opening p opts).place.image < 1024 * 1024) : OackTurn c p c'
  | again {i : Int} {opts : Options}
      (hopts : c.options p = some (i, opts)) (hi : i ≠ 0)
      (hrecvd : c.recvdOack = true) :
      OackTurn c p ({ c with opts := opts, len := p.optionLen }.acknowledge p)
  | opened {opts : Options}
      (hopts : c.options p = some (7, opts))
      (hrecvd : c.recvdOack = false)
      (himage : 1024 * 1024 ≤ (c.opening p opts).place.image) :
      OackTurn c p ({ (c.opening p opts).place.clearBitmap with recvdOack := true }.acknowledge p)

theorem options_blockSize {i : Int} {opts : Options}
    (h : c.options p = some (i, opts)) (hi : i ≠ 0) (hf : c.opts.filesize < 2 ^ 32) :
    opts.filesize < 2 ^ 32 ∧ (i = 7 ∨ c.opts.blockSize = minPacket → opts.blockSize = minPacket) := by
  rw [options] at h
  exact readOptions_blockSize h hi hf

theorem refuse_status (c : Client) (p : Packet) : (c.refuse p).status = .returned := by
  rw [refuse]

theorem refuse_log (c : Client) (p : Packet) : (c.refuse p).log = c.log := by
  rw [refuse, transmit]

theorem openFile_cases (hw : c.status = .waiting) (himage : c.image = 0) (p : Packet) :
    (c.place.image < 1024 * 1024 ∧ (c.openFile p).status = .returned ∧ (c.openFile p).log = c.log) ∨
      (1024 * 1024 ≤ c.place.image ∧
        c.openFile p = { c.place.clearBitmap with recvdOack := true }.acknowledge p) := by
  have hplace : c.place.status = c.status ∧ c.place.log = c.log := by
    exact ⟨rfl, rfl⟩
  rw [openFile, if_pos himage, allotFile]
  generalize c.place = c₁ at hplace
  by_cases hlow : c₁.image < 1024 * 1024
  · rw [if_pos hlow, if_neg (by simp)]
    exact Or.inl ⟨hlow, rfl, hplace.2⟩
  · rw [if_neg hlow, if_pos (by rw [clearBitmap]; exact hplace.1.trans hw)]
    exact Or.inr ⟨Nat.not_lt.mp hlow, rfl⟩

theorem mem_announced {opts : Options} :
    opts ∈ c.announced p ↔ c.options p = some (7, opts) ∧ c.recvdOack = false := by
  rw [announced]
  generalize c.options p = r
  cases r with
  | none => simp [announcedBy]
  | some r =>
    obtain ⟨i, opts'⟩ := r
    simp only [announcedBy, Option.mem_def, Option.ite_none_right_eq_some, Option.some.injEq, Prod.mk.injEq]
    exact ⟨fun h => ⟨⟨h.1.1, h.2⟩, h.1.2⟩, fun h => ⟨⟨h.1.1, h.2⟩, h.1.2⟩⟩

theorem onOack_turn (hw : c.status = .waiting) (hf : c.opts.filesize < 2 ^ 32)
    (himage : c.recvdOack = false → c.image = 0) (p : Packet) : OackTurn c p (c.onOack p) := by
  have hmem (opts : Options) : opts ∈ c.announced p ↔ _ := mem_announced
  rw [onOack]
  generalize hres : c.options p = r
  cases r with
  | none =>
    refine .ended (Or.inr rfl) rfl (fun opts hopts => ?_)
    exact absurd ((hmem opts).mp hopts).1 (by rw [hres]; simp)
  | some r =>
    obtain ⟨i, opts⟩ := r
    rw [onOptions]
    split
    · next hrefuse =>
      refine .ended (Or.inl (refuse_status ..)) (refuse_log ..) (fun opts' hopts' => ?_)
      obtain ⟨hseven, hrecvd⟩ := (hmem opts').mp hopts'
      cases hres.symm.trans hseven
      rcases hrefuse with h | h
      · cases h
      · exact absurd rfl h.1
    · next hrefuse =>
      rw [not_or, not_and] at hrefuse
      split
      · next hrecvd => exact .again hres hrefuse.1 hrecvd
      · next hrecvd =>
        obtain rfl : i = 7 := by
          by_contra hi
          exact hrefuse.2 hi (Bool.eq_false_iff.mpr hrecvd)
        have hblock := (options_blockSize hres (by decide) hf).2 (Or.inl rfl)
        rw [if_neg (by rw [hblock]; decide)]
        have hrecvd' : c.recvdOack = false := Bool.eq_false_iff.mpr hrecvd
        have hopening : { c with
            opts := opts, len := p.optionLen,
            totalPackets := packets opts.filesize opts.blockSize } = c.opening p opts := rfl
        have hw' := (opening_status c p opts).trans hw
        have himage' := (opening_image c p opts).trans (himage hrecvd')
        rw [hopening]
        rcases openFile_cases hw' himage' p with ⟨hlow, hs, hlog⟩ | ⟨hhigh, heq⟩
        · refine .ended (Or.inl hs) (hlog.trans (opening_log ..)) (fun opts' hopts' => ?_)
          have hsame := ((hmem opts').mp hopts').1
          cases hres.symm.trans hsame
          exact hlow
        · rw [heq]
          exact .opened hres hrecvd' hhigh

theorem Inv.filesize (h : Inv c) (hw : c.status = .waiting) : c.opts.filesize < 2 ^ 32 :=
  (h.waiting hw).elim Fresh.filesize Open.filesize

theorem Inv.image (h : Inv c) (hw : c.status = .waiting) (hrecvd : c.recvdOack = false) : c.image = 0 := by
  rcases h.waiting hw with hfresh | hopen
  · exact hfresh.image
  · cases hrecvd.symm.trans hopen.recvdOack

/-- The client when it has made room for a new transfer. -/
def Client.opened (c : Client) (p : Packet) (opts : Options) : Client :=
  { (c.opening p opts).place.clearBitmap with recvdOack := true }

/-- There is room for the bits of all blocks and the one behind them if and only if there is a bitmap
    and it does not end with the last block's bit or just behind it. -/
theorem bits_iff {total allotted : Nat} {some? : Bool} (hpos : 1 ≤ total) (hlt : total < 2 ^ 31)
    (hallotted : allotted = if some? then bitmapBytes total else 0) :
    bitmapBytes total ≤ allotted ∧ (total + 1) / 8 < allotted ↔
      some? = true ∧ total % 8 ≠ 0 ∧ total % 8 ≠ 7 := by
  rw [hallotted, bitmapBytes]
  cases some? with
  | false => simp
  | true =>
    simp only [if_true, true_and]
    omega

section Opened

variable {c : Client} {p : Packet} {opts : Options}

theorem opened_totalPackets :
    (c.opened p opts).totalPackets = packets opts.filesize opts.blockSize := rfl

theorem opened_receivedPackets : (c.opened p opts).receivedPackets = c.receivedPackets := by
  rw [opened, clearBitmap, place, opening]

theorem opened_status : (c.opened p opts).status = c.status := by
  rw [opened, clearBitmap, place, opening]

theorem opened_bitmapLen :
    (c.opened p opts).bitmapLen =
      if (c.heap.allot (bitmapBytes (c.opened p opts).totalPackets)).1.isSome
      then bitmapBytes (c.opened p opts).totalPackets else 0 := rfl

theorem opened_log :
    (c.opened p opts).log = c.log ++
      [.clear (bitmapBytes (c.opened p opts).totalPackets) (c.opened p opts).bitmapLen] := rfl

/-- The first options are handled safely if and only if there is room for the bits. -/
theorem opened_inside_iff (hi : Inv c) (hfresh : Fresh c) (hfs : opts.filesize < 2 ^ 32)
    (hblock : opts.blockSize = minPacket) :
    (∀ a ∈ (c.opened p opts).log, a.Inside) ∧ (c.opened p opts).BitsFit ↔
      (c.heap.allot (bitmapBytes (packets opts.filesize opts.blockSize))).1.isSome = true ∧
        packets opts.filesize opts.blockSize % 8 ≠ 0 ∧
        packets opts.filesize opts.blockSize % 8 ≠ 7 := by
  have htotal : (c.opened p opts).totalPackets = opts.filesize / minPacket + 1 := by
    rw [opened_totalPackets, hblock, packets_eq hfs]
  have hreceived : (c.opened p opts).receivedPackets = 0 :=
    opened_receivedPackets.trans hfresh.receivedPackets
  have hpos : 1 ≤ (c.opened p opts).totalPackets := by
    rw [htotal]
    exact Nat.le_add_left ..
  have hlt : (c.opened p opts).totalPackets < 2 ^ 31 := by
    simp only [minPacket] at htotal
    omega
  rw [BitsFit, hreceived, opened_log]
  simp only [List.forall_mem_append, List.forall_mem_singleton, Nat.zero_le, forall_const]
  rw [Access.Inside, ← opened_totalPackets (c := c) (p := p),
    ← bits_iff hpos hlt (opened_bitmapLen (c := c))]
  exact ⟨fun h => ⟨h.1.2, h.2⟩, fun h => ⟨⟨hi.inside, h.1⟩, h.2⟩⟩

theorem opened_open (hfs : opts.filesize < 2 ^ 32) (hblock : opts.blockSize = minPacket)
    (hbits : ((c.opened p opts).totalPackets + 1) / 8 < (c.opened p opts).bitmapLen) :
    Open (c.opened p opts) := by
  refine ⟨rfl, hblock, hfs, ?_, hfs, hbits⟩
  rw [opened_totalPackets, hblock, packets_eq hfs]
  rfl

end Opened

variable {c : Client}

theorem onOack_safe (hi : Inv c) (hw : c.status = .waiting) (p : Packet) :
    ((∀ opts ∈ c.announced p, OptionsProper c opts) → Inv (c.onOack p)) ∧
      (Safe (c.onOack p) → ∀ opts ∈ c.announced p, OptionsProper c opts) := by
  have hfs := hi.filesize hw
  have hturn := onOack_turn hw hfs (hi.image hw) p
  have hmem (opts : Options) : opts ∈ c.announced p ↔ _ := mem_announced
  generalize c.onOack p = c' at hturn
  cases hturn with
  | ended hs hlog hnone =>
    refine ⟨fun _ => ⟨⟨?_, hlog ▸ hi.inside⟩, fun hw' => ?_⟩, fun _ opts hopts hhigh => ?_⟩
    · rcases hs with hs | hs <;> rw [hs] <;> simp
    · rcases hs with hs | hs <;> rw [hs] at hw' <;> cases hw'
    · exact absurd (hnone opts hopts) (Nat.not_lt.mpr hhigh)
  | @again i opts hopts hne hrecvd =>
    have hopen : Open c := (hi.waiting hw).resolve_left
      (fun h => by cases (h.recvdOack.symm.trans hrecvd))
    obtain ⟨hfs', hblock⟩ := options_blockSize hopts hne hfs
    have hopen' : Open { c with opts := opts, len := p.optionLen } :=
      ⟨hrecvd, hblock (Or.inr hopen.blockSize), hfs', hopen.totalPackets, hopen.imageLen, hopen.bits⟩
    refine ⟨fun _ => hopen'.acknowledge hi.noFault hi.inside p, fun _ opts' hopts' => ?_⟩
    cases ((hmem opts').mp hopts').2.symm.trans hrecvd
  | @opened opts hopts hrecvd himage =>
    have hfresh : Fresh c := (hi.waiting hw).resolve_right
      (fun h => by cases (hrecvd.symm.trans h.recvdOack))
    obtain ⟨hfs', hblock⟩ := options_blockSize hopts (by decide) hfs
    have hiff := opened_inside_iff (p := p) hi hfresh hfs' (hblock (Or.inl rfl))
    have hstatus : (c.opened p opts).status ≠ .fault := hi.noFault
    refine ⟨fun hproper => ?_, fun hsafe opts' hopts' _ => ?_⟩
    · have hroom := hiff.mpr (hproper opts ((hmem opts).mpr ⟨hopts, hrecvd⟩) himage)
      have hreceived : (c.opened p opts).receivedPackets = 0 :=
        opened_receivedPackets.trans hfresh.receivedPackets
      have hopen := opened_open (p := p) hfs' (hblock (Or.inl rfl)) (hroom.2 (by omega))
      exact hopen.acknowledge hstatus hroom.1 p
    · have hsame := ((hmem opts').mp hopts').1
      cases hopts.symm.trans hsame
      exact hiff.mp ((acknowledge_safe_iff hstatus p).mp hsafe)

/-! ## Runs -/

theorem finish_quiet (c : Client) : Quiet c c.finish :=
  ⟨⟨rfl, rfl, rfl, rfl, rfl, rfl, rfl, rfl⟩, rfl, rfl⟩

theorem onTimeout_quiet (c : Client) (sent : Bool) : Quiet c (c.onTimeout sent) := by
  simp only [onTimeout, askAgain]
  split_ifs <;> exact ⟨⟨rfl, rfl, rfl, rfl, rfl, rfl, rfl, rfl⟩, rfl, rfl⟩

theorem onTimeout_status (hw : c.status = .waiting) (sent : Bool) : (c.onTimeout sent).status ≠ .fault := by
  simp only [onTimeout, askAgain, finish, transmit, putRrq]
  split_ifs <;> simp [hw]

theorem onPacket_safe (hi : Inv c) (hw : c.status = .waiting) (p : Packet) :
    (PacketProper c p → Inv (c.onPacket p)) ∧ (Safe (c.onPacket p) → PacketProper c p) := by
  have hfinish : Inv c.finish := hi.quiet hw (finish_quiet c) (by simp [finish])
  rw [onPacket]
  split
  · next herr =>
    exact ⟨fun _ => hfinish, fun _ =>
      ⟨fun h => absurd (herr.symm.trans h) (by decide), fun h => absurd (herr.symm.trans h) (by decide)⟩⟩
  · split
    · next hoack =>
      have hdata : p.opcode = opData → DataProper c p :=
        fun h => by cases (hoack.symm.trans h)
      obtain ⟨hgood, hbad⟩ := onOack_safe hi hw p
      exact ⟨fun h => hgood (h.options hoack), fun hsafe => ⟨fun _ => hbad hsafe, hdata⟩⟩
    · next hoack =>
      split
      · next hdata =>
        have hcases : (DataProper c p → Inv (c.onData p)) ∧ (Safe (c.onData p) → DataProper c p) :=
          (hi.waiting hw).elim (onData_fresh hi hw · p) (onData_open hi hw · p)
        exact ⟨fun h => hcases.1 (h.data hdata),
          fun hsafe => ⟨fun h => absurd h hoack, fun _ => hcases.2 hsafe⟩⟩
      · next hdata =>
        exact ⟨fun _ => hfinish, fun _ => ⟨fun h => absurd h hoack, fun h => absurd h hdata⟩⟩

/-- A proper event keeps the invariant, any other is not handled safely. -/
theorem step_safe (hi : Inv c) (e : Event) :
    (Proper c e → Inv (c.step e)) ∧ (Safe (c.step e) → Proper c e) := by
  rw [step]
  by_cases hw : c.status = .waiting
  · rw [if_pos hw]
    cases e with
    | timeout sent =>
      exact ⟨fun _ => hi.quiet hw (onTimeout_quiet c sent) (onTimeout_status hw sent), fun _ => trivial⟩
    | packet p =>
      rw [turn]
      by_cases hawait : c.awaitTftm p = true
      · rw [if_pos hawait]
        obtain ⟨hgood, hbad⟩ := onPacket_safe hi hw p
        exact ⟨fun h => hgood (h hw hawait), fun hsafe _ _ => hbad hsafe⟩
      · rw [if_neg hawait]
        exact ⟨fun _ => hi, fun _ _ h => absurd h hawait⟩
  · rw [if_neg hw]
    refine ⟨fun _ => hi, fun _ => ?_⟩
    cases e with
    | timeout sent => trivial
    | packet p => exact fun h => absurd h hw

theorem start_inv (cfg : Config) (heap : Alloc.Heap) (iport : UInt16) (u : Store) :
    Inv (start cfg heap iport u) :=
  ⟨⟨by simp [start, transmit, putRrq], by
      simp [start, transmit, putRrq]⟩,
    fun _ => Or.inl ⟨rfl, rfl, rfl, rfl, rfl, show 0 < 2 ^ 32 by decide⟩⟩

/-- **Accesses are inside what is allotted**, and no division is by zero, exactly in the runs all of
    whose packets are proper. -/
theorem accesses_inside_iff (cfg : Config) (heap : Alloc.Heap) (iport : UInt16) (u : Store)
    (es : List Event) :
    AllSteps Client.step (fun c e => Safe (c.step e)) (Client.start cfg heap iport u) es ↔
      AllSteps Client.step Proper (Client.start cfg heap iport u) es := by
  refine allSteps_iff Inv (fun c e hi => ⟨(step_safe hi e).2, fun h => ?_⟩)
    (fun c e hi => (step_safe hi e).1) (start_inv cfg heap iport u) es
  exact ((step_safe hi e).1 h).toSafe

/-! ## Packets that are not proper -/

/-- A client with the address 10.0.0.2 and a heap of three megabytes. -/
def smallClient : Client :=
  Client.start ⟨true, 0x0a000002, Text.bytes "kernel"⟩ ⟨0x400000, 0x100000, 0x400000, fun _ => 0⟩ 2001
    (fun _ => 0)

/-- A packet for it that holds the bytes `bs`. -/
def smallPacket (bs : List UInt8) : Packet :=
  ⟨0x0a000002, 1758, 2001, UInt16.ofNat (8 + bs.length), 14 + 20 + 8 + bs.length,
    Store.splice (fun _ => 0) 0 bs⟩

/-- The options for a file of the size that `tsize` says. -/
def smallOack (tsize : String) : Packet :=
  smallPacket ([0, 6] ++ Text.bytes "tsize" ++ 0 :: Text.bytes tsize ++ 0 :: Text.bytes "blksize" ++
    0 :: Text.bytes "1024" ++ 0 :: Text.bytes "multicast" ++ 0 :: Text.bytes "239.1.1.1,1758,1" ++ [0])

/-- Data for block 0 before the options divide by zero, options for a file of seven blocks use a bit
    behind the bitmap, and data for block 0 after the options are stored in front of the image. -/
theorem block_zero_and_seven_blocks :
    ¬ AllSteps Client.step (fun c e => Safe (c.step e)) smallClient [.packet (smallPacket [0, 3, 0, 0])] ∧
      ¬ AllSteps Client.step (fun c e => Safe (c.step e)) smallClient [.packet (smallOack "6144")] ∧
      ¬ AllSteps Client.step (fun c e => Safe (c.step e)) smallClient
        [.packet (smallOack "100"),
          .packet (smallPacket ([0, 3, 0, 0] ++ List.replicate 1024 0))] := by
  decide +kernel

end Tftm
