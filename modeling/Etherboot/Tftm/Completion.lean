import Etherboot.Slam.Transfer
import Etherboot.Tftm.Safety

set_option autoImplicit false

/-! # When the image is passed on

The client passes its image on when it has counted as many blocks as there are, and also when it gives
up: after a timeout, an error packet, or a packet of another kind. The count is right as long as no
block has the number 0 (`Tracks`), so that `passed_only_complete` holds for runs in which neither
happens.

For a server that does as it should, this is all there is: `transfer_complete` says that the client
takes every block that comes, in any order, and ends with the last one that is missing. -/

namespace Tftm

open Memory Client Bitmap
open Tftp (opData opOack maxTftpRetries)

/-- The access is a copy of `n` bytes to the place `offset`. -/
def Access.isCopy (offset n : Nat) : Access → Bool
  | .copy offset' n' _ _ => offset' == offset && n' == n
  | _ => false

/-- Block `b` has been copied to its place. -/
def Client.stored (c : Client) (b : Nat) : Bool :=
  c.log.any (Access.isCopy ((b - 1) * minPacket) (c.expected b))

/-- An image that is passed on is that of an announced file, with all blocks in their places. -/
def PassedComplete (c : Client) : Prop :=
  ∀ image filesize, c.status = .passed image filesize →
    c.recvdOack = true ∧ image = c.image ∧ filesize = c.opts.filesize ∧
      ∀ b, 1 ≤ b → b ≤ c.totalPackets → c.stored b = true

/-! ## The condition -/

/-- The next timeout ends the loop. -/
def Client.GivesUp (c : Client) : Prop :=
  if c.block = 0 then maxTftpRetries ≤ c.retry
  else c.cfg.congested = false ∨ tftpTimeout ≤ c.retry + tftpRexmt
  deriving Decidable

/-- The first options: there is room for the bitmap, and the file has less than two gigabytes. Later
    ones: the size is as before. -/
def SizeKept (c : Client) (opts : Options) : Prop :=
  if c.recvdOack then opts.filesize = c.opts.filesize
  else opts.filesize < 2 ^ 31 ∧
    (c.heap.allot (Client.bitmapBytes (Client.packets opts.filesize opts.blockSize))).1.isSome = true
  deriving Decidable

/-- The condition on a packet: options or data, no other size, and no block 0. -/
@[mk_iff] structure PacketOrderly (c : Client) (p : Packet) : Prop where
  kind : p.opcode = opOack ∨ p.opcode = opData
  options : p.opcode = opOack → ∀ r ∈ c.options p, r.1 ≠ 0 → SizeKept c r.2
  data : p.opcode = opData → p.block ≠ 0

instance (c : Client) (p : Packet) : Decidable (PacketOrderly c p) :=
  decidable_of_iff' _ (packetOrderly_iff ..)

/-- The condition on an event. -/
def Orderly (c : Client) : Event → Prop
  | .timeout _ => c.status = .waiting → ¬ c.GivesUp
  | .packet p => c.status = .waiting → c.awaitTftm p = true → PacketOrderly c p

instance (c : Client) (e : Event) : Decidable (Orderly c e) :=
  match e with
  | .timeout _ => inferInstanceAs (Decidable (_ → _))
  | .packet _ => inferInstanceAs (Decidable (_ → _ → _))

/-! ## A transfer and its memory -/

/-- The state of a transfer agrees with the memory: the bitmap lies behind the image, the blocks
    stored have their bits set, and they are counted. -/
structure Tracks (c : Client) : Prop where
  recvdOack : c.recvdOack = true
  blockSize : c.opts.blockSize = minPacket
  filesize : c.opts.filesize < 2 ^ 31
  totalPackets : c.totalPackets = c.opts.filesize / minPacket + 1
  layout : ∃ d, c.opts.filesize ≤ d ∧ d + (c.totalPackets + 1) / 8 < 2 ^ 32 ∧
    c.bitmap % 2 ^ 32 = (c.image + d) % 2 ^ 32
  received : c.receivedPackets = (List.range c.totalPackets).countP (fun i => c.stored (i + 1))
  bits : ∀ b, 1 ≤ b → b ≤ c.totalPackets → c.stored b = true →
    Bitmap.bit c.heap.mem c.bitmap b = true

variable {c c' : Client} {b : Nat}

theorem Tracks.totalPackets_lt (h : Tracks c) : c.totalPackets < 2 ^ 22 := by
  have := h.totalPackets
  have := h.filesize
  simp only [minPacket] at *
  omega

/-- Steps that keep the variables, the copies and the blocks' bits keep the agreement. -/
theorem Tracks.congr (h : Tracks c) (hk : Keeps c c')
    (hstored : ∀ b, c'.stored b = c.stored b)
    (hbits : ∀ b ≤ c.totalPackets, bit c'.heap.mem c.bitmap b = bit c.heap.mem c.bitmap b) : Tracks c' := by
  obtain ⟨d, hd⟩ := h.layout
  refine ⟨hk.recvdOack.trans h.recvdOack, hk.opts ▸ h.blockSize, hk.opts ▸ h.filesize, ?_, ⟨d, ?_⟩, ?_,
    fun b hb hle hs => ?_⟩
  · rw [hk.totalPackets, hk.opts]
    exact h.totalPackets
  · rw [hk.totalPackets, hk.opts, hk.bitmap, hk.image]
    exact hd
  · rw [hk.receivedPackets, hk.totalPackets, h.received]
    simp only [hstored]
  · rw [hk.totalPackets] at hle
    rw [hstored] at hs
    rw [hk.bitmap, hbits b hle]
    exact h.bits b hb hle hs

/-- Accesses that are no copies store nothing. -/
theorem stored_append (hk : Keeps c c') {as : List Access}
    (hlog : c'.log = c.log ++ as) (has : ∀ a ∈ as, ∀ offset n, a.isCopy offset n = false) (b : Nat) :
    c'.stored b = c.stored b := by
  rw [stored, stored, hlog, hk.expected, List.any_append]
  have hnone : as.any (Access.isCopy ((b - 1) * minPacket) (c.expected b)) = false :=
    List.any_eq_false.mpr (fun a ha => by rw [has a ha]; decide)
  rw [hnone, Bool.or_false]

theorem Quiet.stored (hq : Quiet c c') (b : Nat) : c'.stored b = c.stored b :=
  stored_append hq.toKeeps (hq.log.trans (List.append_nil _).symm) (by simp) b

theorem looksAt_stored (c : Client) (i b : Nat) : (c.looksAt i).stored b = c.stored b := by
  refine stored_append (looksAt_keeps c i) rfl ?_ b
  intro a ha
  obtain rfl := List.mem_singleton.mp ha
  exact fun _ _ => rfl

theorem Tracks.quiet (h : Tracks c) (hq : Quiet c c') : Tracks c' :=
  h.congr hq.toKeeps hq.stored (fun _ _ => by rw [hq.mem])

theorem Tracks.looksAt (h : Tracks c) (i : Nat) : Tracks (c.looksAt i) :=
  h.congr (looksAt_keeps c i) (looksAt_stored c i) (fun _ _ => rfl)

theorem findMissing_stored (c : Client) (hk : Keeps c c.findMissing) (b : Nat) :
    c.findMissing.stored b = c.stored b := by
  refine stored_append hk rfl ?_ b
  intro a ha
  obtain ⟨i, -, rfl⟩ := List.mem_map.mp ha
  exact fun _ _ => rfl

theorem findMissing_bit (hlt : c.totalPackets < 2 ^ 22) (hb : b ≤ c.totalPackets) :
    bit c.findMissing.heap.mem c.bitmap b = bit c.heap.mem c.bitmap b := by
  show bit (Slam.invertTrailer c.heap.mem c.bitmap (c.totalPackets + 1)) c.bitmap b = _
  rw [Slam.bit_invertTrailer c.heap.mem c.bitmap (by omega) (by omega) (by omega), if_neg (by omega)]

theorem Tracks.looked (h : Tracks c) : Tracks c.looked := by
  have hk := looked_keeps c
  rw [Client.looked] at hk ⊢
  split
  · next hle =>
    rw [if_pos hle] at hk
    exact h.congr hk (findMissing_stored c hk) (fun _ => findMissing_bit h.totalPackets_lt)
  · exact h

theorem Tracks.all_stored (h : Tracks c) (hall : c.receivedPackets = c.totalPackets)
    (hb : 1 ≤ b) (hle : b ≤ c.totalPackets) : c.stored b = true := by
  have hcount := List.countP_eq_length (p := fun i => c.stored (i + 1))
    (l := List.range c.totalPackets)
  rw [List.length_range, ← h.received] at hcount
  have hb' := hcount.mp hall (b - 1) (List.mem_range.mpr (by omega))
  rwa [Nat.sub_add_cancel hb] at hb'

/-- No options have come yet, and nothing has been stored. -/
structure Idle (c : Client) : Prop extends Fresh c where
  log : c.log = []

theorem Idle.quiet (h : Idle c) (hq : Quiet c c') : Idle c' :=
  ⟨h.toFresh.quiet hq, hq.log.trans h.log⟩

/-- The accounts are right. -/
structure Accounted (c : Client) : Prop where
  passed : PassedComplete c
  waiting : c.status = .waiting → Idle c ∨ Tracks c

/-- The end of a turn passes the image on only if it is complete. -/
theorem Tracks.acknowledge (h : Tracks c) (hw : c.status = .waiting) (p : Packet) :
    Accounted (c.acknowledge p) := by
  have hq := acknowledge_quiet c p
  have hk := acknowledge_keeps c p
  have htracks : Tracks (c.acknowledge p) := h.looked.quiet hq
  refine ⟨fun image filesize hs => ?_, fun _ => Or.inr htracks⟩
  rw [acknowledge_status, hw] at hs
  split at hs
  · next hall =>
    cases hs
    refine ⟨htracks.recvdOack, hk.image.symm, by rw [hk.opts], fun b hb hle => ?_⟩
    refine htracks.all_stored ?_ hb hle
    rw [hk.receivedPackets, hk.totalPackets, hall]
  · cases hs

/-! ## A block is stored -/

/-- Where a bit of the bitmap is, counted from the image. -/
theorem addr_bitmap {image bitmap d : Nat} (h : bitmap % 2 ^ 32 = (image + d) % 2 ^ 32) (i : Nat) :
    addr bitmap i = (image + (d + i / 8)) % 2 ^ 32 := by
  rw [addr, Nat.shiftRight_eq_div_pow]
  omega

/-- A copy into the image does not touch the bitmap. -/
theorem Tracks.bit_memcpy (h : Tracks c) {off n : Nat} (hin : off + n ≤ c.opts.filesize)
    (mem : Store) (f : Nat → UInt8) (hb : b ≤ c.totalPackets) :
    bit (memcpy mem ((c.image + off) % 2 ^ 32) f n) c.bitmap b = bit mem c.bitmap b := by
  obtain ⟨d, hd, hlt, hbase⟩ := h.layout
  refine bit_congr ?_
  rw [memcpy, if_neg]
  rw [addr_bitmap hbase, above_offset c.image (by omega) (by omega)]
  omega

theorem Tracks.expected_le (h : Tracks c) (b : Nat) : c.expected b ≤ minPacket := by
  rw [expected, h.blockSize]
  split
  · exact Nat.le_refl _
  · exact Nat.le_of_lt (Nat.mod_lt _ (by decide))

theorem Tracks.place (h : Tracks c) (hb : 1 ≤ b) (hle : b ≤ c.totalPackets) :
    (b - 1) * minPacket + c.expected b ≤ c.opts.filesize := by
  have htotal := h.totalPackets
  rw [expected, h.blockSize]
  simp only [minPacket] at *
  split
  · omega
  · omega

theorem Tracks.store_offset (h : Tracks c) (hb : 1 ≤ b) (hle : b ≤ c.totalPackets) :
    wsub b 1 * c.opts.blockSize % 2 ^ 32 = (b - 1) * minPacket ∧
      min (c.expected b) c.opts.blockSize = c.expected b := by
  have hlt := h.totalPackets_lt
  rw [h.blockSize, wsub_of_le hb (by omega)]
  refine ⟨Nat.mod_eq_of_lt ?_, Nat.min_eq_left (h.expected_le b)⟩
  simp only [minPacket]
  omega

section Store

variable {c : Client} (h : Tracks c) (p : Packet) {b : Nat} (hb : 1 ≤ b) (hle : b ≤ c.totalPackets)

include h hb hle

theorem Tracks.store_log :
    (c.store p b).log = c.log ++ [.bit b c.bitmapLen,
      .copy ((b - 1) * minPacket) (c.expected b) c.opts.filesize c.imageLen] := by
  obtain ⟨hoff, hn⟩ := h.store_offset hb hle
  rw [store, hoff, hn]

theorem Tracks.store_mem :
    (c.store p b).heap.mem = memcpy (setBit c.heap.mem c.bitmap b)
      ((c.image + (b - 1) * minPacket) % 2 ^ 32) (fun k => p.body (4 + k)) (c.expected b) := by
  obtain ⟨hoff, hn⟩ := h.store_offset hb hle
  rw [store, hoff, hn]

theorem Tracks.stored_store {b' : Nat} (hb' : 1 ≤ b') :
    (c.store p b).stored b' = if b' = b then true else c.stored b' := by
  have hexp : (c.store p b).expected b' = c.expected b' := rfl
  rw [stored, h.store_log p hb hle, hexp, List.any_append]
  by_cases hsame : b' = b
  · rw [if_pos hsame, hsame]
    simp [Access.isCopy]
  · have hoff : (b - 1) * minPacket ≠ (b' - 1) * minPacket := by
      simp only [minPacket]
      omega
    rw [if_neg hsame]
    simp [Access.isCopy, hoff, stored]

theorem Tracks.store (hclear : bit c.heap.mem c.bitmap b = false) : Tracks (c.store p b) := by
  have hlt := h.totalPackets_lt
  have hnot : c.stored b = false :=
    Bool.eq_false_iff.mpr (fun hs => by cases ((h.bits b hb hle hs).symm.trans hclear))
  refine ⟨h.recvdOack, h.blockSize, h.filesize, h.totalPackets, h.layout, ?_, fun b' hb' hle' hs => ?_⟩
  · show (c.receivedPackets + 1) % 2 ^ 32 = (List.range c.totalPackets).countP _
    have hcount := countP_range_update (f := fun i => c.stored (i + 1))
      (g := fun i => (c.store p b).stored (i + 1)) (i := b - 1) (n := c.totalPackets) (by omega)
      (by simpa only [Nat.sub_add_cancel hb] using hnot)
      (fun j _ => by
        rw [h.stored_store p hb hle (Nat.le_add_left 1 j)]
        by_cases hj : j + 1 = b
        · rw [if_pos hj, if_pos (by omega)]
        · rw [if_neg hj, if_neg (by omega)])
    have hbound : c.receivedPackets ≤ c.totalPackets := by
      rw [h.received]
      exact Nat.le_trans List.countP_le_length (by simp)
    rw [hcount, ← h.received]
    omega
  · replace hle' : b' ≤ c.totalPackets := hle'
    show bit (c.store p b).heap.mem c.bitmap b' = true
    rw [h.store_mem p hb hle, h.bit_memcpy (h.place hb hle) _ _ hle', bit_setBit (by omega) (by omega)]
    rw [h.stored_store p hb hle hb'] at hs
    split
    · rfl
    · next hne =>
      rw [if_neg hne] at hs
      exact h.bits b' hb' hle' hs

end Store

/-! ## Runs -/

variable {c : Client}

theorem Accounted.of_waiting {c' : Client} (h : Accounted c) (hw : c.status = .waiting)
    (hq : Quiet c c') (hs : c'.status = .waiting ∨ c'.status = .returned ∨ c'.status = .fault) :
    Accounted c' := by
  refine ⟨fun image filesize hpassed => ?_,
    fun _ => (h.waiting hw).imp (Idle.quiet · hq) (Tracks.quiet · hq)⟩
  rcases hs with hs | hs | hs <;> rw [hs] at hpassed <;> cases hpassed

theorem Accounted.of_ended
    (hs : c.status = .returned ∨ c.status = .fault ∨ c.status = .hung) : Accounted c := by
  refine ⟨fun image filesize hpassed => ?_, fun hw => ?_⟩
  · rcases hs with hs | hs | hs <;> rw [hs] at hpassed <;> cases hpassed
  · rcases hs with hs | hs | hs <;> rw [hs] at hw <;> cases hw

theorem onTimeout_accounted (h : Accounted c) (hw : c.status = .waiting)
    (hgo : ¬ c.GivesUp) (sent : Bool) : Accounted (c.onTimeout sent) := by
  refine h.of_waiting hw (onTimeout_quiet c sent) ?_
  rw [GivesUp] at hgo
  rw [onTimeout]
  by_cases hb : c.block = 0
  · rw [if_pos hb] at hgo ⊢
    rw [if_pos (not_le.mp hgo), askAgain]
    cases sent with
    | true => exact Or.inl hw
    | false => exact Or.inr (Or.inl rfl)
  · rw [if_neg hb] at hgo ⊢
    rw [not_or, not_le, Bool.not_eq_false] at hgo
    rw [if_pos hgo.1, if_pos hgo.2]
    cases sent <;> exact Or.inl hw

theorem looksAt_clear {c₁ : Client} (hq : Quiet c c₁) {b : Nat}
    (hclear : bit c.heap.mem c.bitmap b = false) :
    bit (c₁.looksAt b).heap.mem (c₁.looksAt b).bitmap b = false := by
  show bit c₁.heap.mem c₁.bitmap b = false
  rw [hq.mem, hq.bitmap]
  exact hclear

theorem onData_accounted (h : Accounted c) (hw : c.status = .waiting) {p : Packet}
    (hblock : p.block ≠ 0) : Accounted (c.onData p) := by
  have hturn := onData_turn c p
  have htracks (hexp : Expected c p) : Tracks c := by
    refine (h.waiting hw).resolve_left (fun hfresh => hexp.divides ⟨?_, hfresh.blockSize⟩)
    exact Nat.le_antisymm hexp.number (hfresh.totalPackets ▸ Nat.zero_le _)
  generalize c.onData p = c' at hturn
  cases hturn with
  | ignored hq hs _ _ => exact h.of_waiting hw hq (Or.inl (hs.trans hw))
  | fault hs _ => exact .of_ended (Or.inr (Or.inl hs))
  | @duplicate c₁ hq hs hexp _ =>
    exact (((htracks hexp).quiet hq).looksAt p.block).acknowledge (hs.trans hw) p
  | @stored c₁ hq hs hexp hclear =>
    have ht := ((htracks hexp).quiet hq).looksAt p.block
    have hle : p.block ≤ (c₁.looksAt p.block).totalPackets := hq.totalPackets ▸ hexp.number
    have hclear' : bit (c₁.looksAt p.block).heap.mem (c₁.looksAt p.block).bitmap p.block
        = false := looksAt_clear hq hclear
    exact (ht.store p (Nat.one_le_iff_ne_zero.mpr hblock) hle hclear').acknowledge (hs.trans hw) p

/-- Options that repeat the size change nothing that is tracked. -/
theorem Tracks.newOptions (h : Tracks c) {opts : Options} (len : Nat)
    (hblock : opts.blockSize = minPacket) (hfs : opts.filesize = c.opts.filesize) :
    Tracks { c with opts := opts, len := len } := by
  have hexp (b : Nat) : expected { c with opts := opts, len := len } b = c.expected b := by
    rw [expected, expected, h.blockSize]
    simp only [hblock, hfs]
  have hstored (b : Nat) : stored { c with opts := opts, len := len } b = c.stored b := by
    rw [stored, stored, hexp]
  refine ⟨h.recvdOack, hblock, hfs ▸ h.filesize, hfs ▸ h.totalPackets, hfs ▸ h.layout, ?_,
    fun b hb hle hs => h.bits b hb hle ((hstored b).symm.trans hs)⟩
  simp only [hstored]
  exact h.received

section Opened

variable {c : Client} {p : Packet} {opts : Options}

theorem opened_bitmap : (c.opened p opts).bitmap =
    (c.heap.allot (bitmapBytes (packets opts.filesize opts.blockSize))).1.getD 0 := by
  rw [opened, clearBitmap, place, opening]

theorem opened_image : (c.opened p opts).image = (c.opening p opts).place.image := by
  rw [opened, clearBitmap]

theorem place_image : (c.opening p opts).place.image =
    ((c.heap.allot (bitmapBytes (packets opts.filesize opts.blockSize))).2.allot
      opts.filesize).1.getD 0 := by
  rw [place, opening]

/-- Bitmap and image of a new transfer are allotted, one below the other. -/
theorem opened_layout (hfs : opts.filesize < 2 ^ 31) (hblock : opts.blockSize = minPacket)
    (hsome : (c.heap.allot (bitmapBytes (packets opts.filesize opts.blockSize))).1.isSome
      = true)
    (himage : 1024 * 1024 ≤ (c.opening p opts).place.image) :
    ∃ d, opts.filesize ≤ d ∧ d + ((c.opened p opts).totalPackets + 1) / 8 < 2 ^ 32 ∧
      (c.opened p opts).bitmap % 2 ^ 32 = ((c.opened p opts).image + d) % 2 ^ 32 := by
  have htotal : (c.opened p opts).totalPackets = opts.filesize / minPacket + 1 := by
    rw [opened_totalPackets, hblock, packets_eq (by omega)]
  rw [opened_image, opened_bitmap, htotal]
  rw [place_image] at himage ⊢
  have hsome' : ((c.heap.allot (bitmapBytes
      (packets opts.filesize opts.blockSize))).2.allot opts.filesize).1.isSome = true := by
    generalize ((c.heap.allot _).2.allot opts.filesize).1 = addr at himage
    cases addr with
    | none => cases himage
    | some a => rfl
  obtain ⟨d, hd, hd', hbase⟩ := c.heap.allot_below _ _ hsome hsome'
  refine ⟨d, hd, ?_, hbase⟩
  simp only [minPacket]
  omega

theorem opened_tracks (hidle : Idle c) (hfs : opts.filesize < 2 ^ 31)
    (hblock : opts.blockSize = minPacket)
    (hsome : (c.heap.allot (bitmapBytes (packets opts.filesize opts.blockSize))).1.isSome
      = true)
    (himage : 1024 * 1024 ≤ (c.opening p opts).place.image) : Tracks (c.opened p opts) := by
  have hstored (b : Nat) : (c.opened p opts).stored b = false := by
    rw [stored, opened_log, hidle.log]
    rfl
  have hopts : (c.opened p opts).opts = opts := by
    rw [opened, clearBitmap, place, opening]
  refine ⟨by rw [opened], by rw [hopts, hblock], by rw [hopts]; exact hfs, ?_, ?_, ?_,
    fun b _ _ hs => absurd hs (by rw [hstored]; decide)⟩
  · rw [opened_totalPackets, hopts, hblock, packets_eq (by omega)]
  · exact opened_layout hfs hblock hsome himage
  · rw [opened_receivedPackets, hidle.receivedPackets, eq_comm, List.countP_eq_zero]
    intro i _
    rw [hstored]
    decide

end Opened

theorem onOack_accounted {c : Client} (h : Accounted c) (hw : c.status = .waiting) {p : Packet}
    (hkept : ∀ r ∈ c.options p, r.1 ≠ 0 → SizeKept c r.2) : Accounted (c.onOack p) := by
  have hstate := h.waiting hw
  have hfs : c.opts.filesize < 2 ^ 32 := by
    rcases hstate with hidle | htracks
    · exact hidle.filesize
    · exact Nat.lt_trans htracks.filesize (by decide)
  have himage (hrecvd : c.recvdOack = false) : c.image = 0 := by
    rcases hstate with hidle | htracks
    · exact hidle.image
    · cases hrecvd.symm.trans htracks.recvdOack
  have hturn := onOack_turn hw hfs himage p
  generalize c.onOack p = c' at hturn
  cases hturn with
  | ended hs _ _ =>
    rcases hs with hs | hs
    · exact .of_ended (Or.inl hs)
    · exact .of_ended (Or.inr (Or.inr hs))
  | @again i opts hopts hne hrecvd =>
    have htracks := hstate.resolve_left
      (fun hidle => by cases (hidle.recvdOack.symm.trans hrecvd))
    have hsize := hkept (i, opts) hopts hne
    rw [SizeKept, if_pos hrecvd] at hsize
    obtain ⟨-, hblock⟩ := options_blockSize hopts hne hfs
    exact (htracks.newOptions p.optionLen (hblock (Or.inr htracks.blockSize)) hsize).acknowledge hw p
  | @opened opts hopts hrecvd hplace =>
    have hidle := hstate.resolve_right
      (fun htracks => by cases (hrecvd.symm.trans htracks.recvdOack))
    have hsize := hkept (7, opts) hopts (show (7 : Int) ≠ 0 by decide)
    rw [SizeKept, if_neg (by rw [hrecvd]; decide)] at hsize
    obtain ⟨-, hblock⟩ := options_blockSize hopts (by decide) hfs
    exact (opened_tracks hidle hsize.1 (hblock (Or.inl rfl)) hsize.2 hplace).acknowledge
      (opened_status.trans hw) p

theorem step_accounted {c : Client} (h : Accounted c) {e : Event} (ho : Orderly c e) :
    Accounted (c.step e) := by
  rw [step]
  split
  · next hw =>
    cases e with
    | timeout sent => exact onTimeout_accounted h hw (ho hw) sent
    | packet p =>
      rw [turn]
      split
      · next hawait =>
        obtain ⟨hkind, hoptions, hdata⟩ := ho hw hawait
        rw [onPacket]
        rcases hkind with hoack | hdata'
        · rw [if_neg (by rw [hoack]; decide), if_pos hoack]
          exact onOack_accounted h hw (hoptions hoack)
        · rw [if_neg (by rw [hdata']; decide), if_neg (by rw [hdata']; decide), if_pos hdata']
          exact onData_accounted h hw (hdata hdata')
      · exact h
  · exact h

theorem start_idle (cfg : Config) (heap : Alloc.Heap) (iport : UInt16) (u : Store) :
    (start cfg heap iport u).status = .waiting ∧ Idle (start cfg heap iport u) := by
  have hw : (start cfg heap iport u).status = .waiting := by
    rw [start, transmit, putRrq]
  refine ⟨hw, ((start_inv cfg heap iport u).waiting hw).resolve_right (fun h => ?_), rfl⟩
  exact absurd h.recvdOack (by simp [start, transmit, putRrq])

theorem start_accounted (cfg : Config) (heap : Alloc.Heap) (iport : UInt16) (u : Store) :
    Accounted (start cfg heap iport u) :=
  ⟨fun image filesize hs => (by cases hs), fun _ => Or.inl (start_idle cfg heap iport u).2⟩

/-- **Only complete images are passed on**, in every run in which no timeout ends the loop, no other
    packets than options and data come, the size is not changed and no block has the number 0. -/
theorem passed_only_complete (cfg : Config) (heap : Alloc.Heap) (iport : UInt16) (u : Store)
    (es : List Event) (h : AllSteps Client.step Orderly (Client.start cfg heap iport u) es) :
    AllSteps Client.step (fun c e => PassedComplete (c.step e)) (Client.start cfg heap iport u) es :=
  h.of_inv Accounted (fun _ _ hi ho => ⟨(step_accounted hi ho).passed, step_accounted hi ho⟩)
    (start_accounted cfg heap iport u)

/-- A file of one block, sent as it should be. -/
def oneBlock : List Event :=
  [.packet (smallOack "100"), .packet (smallPacket ([0, 3, 0, 1] ++ List.replicate 100 7))]

theorem oneBlock_passed :
    AllSteps Client.step Orderly smallClient oneBlock ∧
      AllSteps Client.step (fun c e => PassedComplete (c.step e)) smallClient oneBlock ∧
      (smallClient.run oneBlock).status = .passed (smallClient.run oneBlock).image 100 := by
  have h : AllSteps step Orderly smallClient oneBlock := by decide +kernel
  exact ⟨h, passed_only_complete _ _ _ _ oneBlock h, by decide +kernel⟩

/-- An error packet after the options: the image is passed on without a single block. -/
theorem error_passes_image :
    ¬ AllSteps Client.step (fun c e => PassedComplete (c.step e)) smallClient
      [.packet (smallOack "2000"), .packet (smallPacket [0, 5, 0, 1])] := by
  intro h
  have hstatus : ((smallClient.step (.packet (smallOack "2000"))).step
      (.packet (smallPacket [0, 5, 0, 1]))).status = .passed 4192276 2000 := by decide +kernel
  have hstored := (h.2.1 _ _ hstatus).2.2.2 1 (by decide) (by decide +kernel)
  exact absurd hstored (by decide +kernel)

end Tftm
