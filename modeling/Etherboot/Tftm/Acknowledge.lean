import Etherboot.Tftm.Transfer
import Etherboot.Lib.Resume

set_option autoImplicit false

/-! # The acknowledgements of a master client

After every packet `proto_tftm` looks for the first block missing, over a bitmap that ends in the
inverse of the last block's bit: when all blocks are there, this bit is the one that is clear. What the
master then acknowledges is the block before, whatever number the packet itself had. -/

namespace Tftm

open Memory Client Bitmap
open Tftp (opData opError opOack)

/-- The largest number up to which all blocks are stored. -/
structure LastStored (c : Client) (n : Nat) : Prop where
  le : n ≤ c.totalPackets
  stored : ∀ b, 1 ≤ b → b ≤ n → c.stored b = true
  largest : ∀ m ≤ c.totalPackets, (∀ b, 1 ≤ b → b ≤ m → c.stored b = true) → m ≤ n

/-- All that has been sent since `c` are acknowledgements of the blocks stored without a gap. -/
def AcksRight (c c' : Client) : Prop :=
  ∃ new, c'.sent = c.sent ++ new ∧
    ∀ s ∈ new, s.opcode = opAck ∧ ∃ n, s.u = be16Bytes n ∧ LastStored c' n

/-- A packet with a block from 1 to `total`. -/
def BringsUpTo (total : Nat) : Event → Prop
  | .timeout _ => False
  | .packet p => p.opcode = opData ∧ 1 ≤ p.block ∧ p.block ≤ total

/-! ## The search for the first block missing -/

variable {n b : Nat} {p : Packet}

theorem firstClear_eq (bit : Nat → Bool) :
    firstClear bit n b = Resume.first (fun k => ¬ bit k = true) n b := by
  induction n generalizing b with
  | zero => rfl
  | succ n ih => rw [firstClear, Resume.first, ite_not, ih]

variable {c c' : Client}

theorem Exact.bit (h : Exact c) (hb : 1 ≤ b) (hle : b ≤ c.totalPackets) :
    bit c.heap.mem c.bitmap b = c.stored b := by
  cases hs : c.stored b with
  | true => exact h.bits b hb hle hs
  | false => exact h.missing b hb hle hs

theorem Exact.receivedPackets_le (h : Exact c) : c.receivedPackets ≤ c.totalPackets := by
  rw [h.received]
  exact Nat.le_trans List.countP_le_length (by simp)

theorem Exact.looked (h : Exact c) : Exact c.looked := by
  have hk := looked_keeps c
  rw [Client.looked, if_pos h.receivedPackets_le] at hk ⊢
  exact h.congr hk (findMissing_stored c hk) (fun _ => findMissing_bit h.totalPackets_lt)

/-- The block in front of the first clear bit is the last one stored without a gap: if none is missing,
    the clear bit is the one behind the last block's. -/
theorem Exact.firstClear (h : Exact c) (bit : Nat → Bool)
    (hbit : ∀ b, 1 ≤ b → b ≤ c.totalPackets → bit b = c.stored b)
    (htrailer : bit (c.totalPackets + 1) = !c.stored c.totalPackets) :
    ∃ n, firstClear bit (c.totalPackets + 1) 1 = some (n + 1) ∧ LastStored c n := by
  have hpos : 1 ≤ c.totalPackets := by
    rw [h.totalPackets]
    exact Nat.le_add_left ..
  cases hfirst : Client.firstClear bit (c.totalPackets + 1) 1 with
  | none =>
    rw [firstClear_eq] at hfirst
    have hall := Resume.first_eq_none.mp hfirst
    have hlast := not_not.mp (hall c.totalPackets hpos (by omega))
    rw [hbit _ hpos (Nat.le_refl _)] at hlast
    refine absurd ?_ (hall (c.totalPackets + 1) (by omega) (by omega))
    rw [htrailer, hlast]
    exact Bool.false_ne_true
  | some k =>
    rw [firstClear_eq] at hfirst
    obtain ⟨hk, hlt, hclear, hbefore⟩ := Resume.first_eq_some hfirst
    refine ⟨k - 1, by rw [Nat.sub_add_cancel hk], by omega, fun b hb hbk => ?_, fun m hm hall => ?_⟩
    · rw [← hbit b hb (by omega)]
      exact not_not.mp (hbefore b hb (by omega))
    · by_contra hgt
      exact hclear ((hbit k hk (by omega)).trans (hall k hk (by omega)))

theorem ackBlock_slice (tp : Tp) (n : Nat) : (tp.ackBlock n).u.slice 0 2 = be16Bytes n :=
  Store.slice_splice_self tp.u 0 (be16Bytes n)

/-- What the search leaves in the packet buffer. The other fields it changes are hidden, as comparing
    them costs the kernel too much. -/
theorem findMissing_eq (c : Client) : ∃ heap log, c.findMissing = { c with
    heap := heap, log := log,
    tp :=
      match firstClear (bit (Slam.invertTrailer c.heap.mem c.bitmap (c.totalPackets + 1))
        c.bitmap) (c.totalPackets + 1) 1 with
      | some b => c.tp.ackBlock (b - 1)
      | none => c.tp } :=
  ⟨_, _, rfl⟩

theorem findMissing_tp (h : firstClear (bit (Slam.invertTrailer c.heap.mem c.bitmap (c.totalPackets + 1))
      c.bitmap) (c.totalPackets + 1) 1 = some (n + 1)) : c.findMissing.tp = c.tp.ackBlock n := by
  obtain ⟨heap, log, heq⟩ := findMissing_eq c
  rw [heq, h]
  rfl

/-- The bits as they are looked at: those of the blocks, and the inverse of the last one behind them. -/
theorem Exact.bit_invertTrailer (h : Exact c) {i : Nat} (hi : i ≤ c.totalPackets + 1) :
    Bitmap.bit (Slam.invertTrailer c.heap.mem c.bitmap (c.totalPackets + 1)) c.bitmap i =
      if i = c.totalPackets + 1 then !Bitmap.bit c.heap.mem c.bitmap c.totalPackets
      else Bitmap.bit c.heap.mem c.bitmap i := by
  have hlt := h.totalPackets_lt
  rw [Slam.bit_invertTrailer c.heap.mem c.bitmap (by omega) (by omega) hi, Nat.add_sub_cancel]

theorem Exact.looked_ack (h : Exact c) : ∃ n, c.looked.tp.u.slice 0 2 = be16Bytes n ∧ LastStored c n := by
  have hpos : 1 ≤ c.totalPackets := by
    rw [h.totalPackets]
    exact Nat.le_add_left ..
  obtain ⟨n, hfirst, hlast⟩ := h.firstClear
    (Bitmap.bit (Slam.invertTrailer c.heap.mem c.bitmap (c.totalPackets + 1)) c.bitmap)
    (fun b hb hle => by rw [h.bit_invertTrailer (by omega), if_neg (by omega), h.bit hb hle])
    (by rw [h.bit_invertTrailer (Nat.le_refl _), if_pos rfl, h.bit hpos (Nat.le_refl _)])
  refine ⟨n, ?_, hlast⟩
  rw [Client.looked, if_pos h.receivedPackets_le, findMissing_tp hfirst, ackBlock_slice]

/-! ## What is sent in a turn -/

theorem looked_sent (c : Client) : c.looked.sent = c.sent := by
  rw [looked]
  split
  · obtain ⟨heap, log, heq⟩ := findMissing_eq c
    rw [heq]
  · rfl

/-- A master sends one acknowledgement at the end of a turn. -/
theorem acknowledge_sent (hmaster : c.opts.ismaster = true) (p : Packet) :
    (c.acknowledge p).sent = c.sent ++ [⟨c.looked.iport, p.src, opAck, c.looked.tp.u.slice 0 2⟩] := by
  have hlooked : c.looked.opts.ismaster = true := by
    rw [(looked_keeps c).opts]
    exact hmaster
  have hanswer : c.answer p.src = c.looked.sendAck p.src := by
    exact if_pos hlooked
  have hsent : (c.looked.sendAck p.src).sent =
      c.sent ++ [⟨c.looked.iport, p.src, opAck, c.looked.tp.u.slice 0 2⟩] := by
    rw [sendAck, transmit]
    simp only [looked_sent]
  have hkept : (c.looked.sendAck p.src).opts.ismaster = true := by
    exact hlooked
  rw [acknowledge, hanswer]
  split
  · rw [complete, if_pos hkept, finish]
    exact hsent
  · split
    · exact hsent
    · exact hsent

theorem LastStored.congr (h : LastStored c n) (htotal : c'.totalPackets = c.totalPackets)
    (hstored : ∀ b, c'.stored b = c.stored b) : LastStored c' n := by
  refine ⟨htotal ▸ h.le, fun b hb hle => ?_, fun m hm hall => ?_⟩
  · rw [hstored]
    exact h.stored b hb hle
  · refine h.largest m (htotal ▸ hm) (fun b hb hle => ?_)
    rw [← hstored]
    exact hall b hb hle

/-- **The end of a turn.** The acknowledgement is that of the last block stored without a gap. -/
theorem Exact.acknowledge (h : Exact c) (hmaster : c.opts.ismaster = true) (p : Packet) :
    Exact (c.acknowledge p) ∧ AcksRight c (c.acknowledge p) := by
  refine ⟨h.looked.quiet (acknowledge_quiet c p), _, acknowledge_sent hmaster p, fun s hs => ?_⟩
  obtain rfl := List.mem_singleton.mp hs
  obtain ⟨n, hn, hlast⟩ := h.looked_ack
  exact ⟨rfl, n, hn, hlast.congr (acknowledge_keeps c p).totalPackets (acknowledge_stored c p)⟩

theorem AcksRight.of_sent {c₁ : Client} (h : AcksRight c₁ c') (hsent : c₁.sent = c.sent) :
    AcksRight c c' := by
  obtain ⟨new, hnew, hacks⟩ := h
  exact ⟨new, by rw [hnew, hsent], hacks⟩

/-- **A turn with data.** A packet that is dropped is not acknowledged. -/
theorem Exact.onData (h : Exact c) (hmaster : c.opts.ismaster = true) (hb : 1 ≤ p.block) :
    (Exact (c.onData p) ∧ (c.onData p).opts = c.opts ∧
      (c.onData p).totalPackets = c.totalPackets) ∧ AcksRight c (c.onData p) := by
  obtain ⟨c₁, hq, -, hsent, ⟨heq, -, -⟩ | ⟨-, hfault⟩ | ⟨hexp, ⟨hbit, heq⟩ | ⟨hbit, heq⟩⟩⟩ := onData_eq c p
  · rw [heq]
    exact ⟨⟨h.quiet hq, hq.opts, hq.totalPackets⟩, [], by rw [hsent, List.append_nil], by simp⟩
  · rw [h.blockSize] at hfault
    cases hfault.2.2
  · have hk := (hq.toKeeps.trans (looksAt_keeps c₁ p.block)).trans (acknowledge_keeps (c₁.looksAt p.block) p)
    obtain ⟨hexact, hacks⟩ := ((h.quiet hq).looksAt p.block).acknowledge (hq.opts ▸ hmaster) p
    rw [heq]
    exact ⟨⟨hexact, hk.opts, hk.totalPackets⟩, hacks.of_sent hsent⟩
  · have hle : p.block ≤ (c₁.looksAt p.block).totalPackets := hq.totalPackets ▸ hexp.number
    have hstore := ((h.quiet hq).looksAt p.block).store p hb hle (looksAt_clear hq hbit)
    obtain ⟨hexact, hacks⟩ := hstore.acknowledge (hq.opts ▸ hmaster) p
    have hk := acknowledge_keeps ((c₁.looksAt p.block).store p p.block) p
    rw [heq]
    exact ⟨⟨hexact, hk.opts.trans hq.opts, hk.totalPackets.trans hq.totalPackets⟩, hacks.of_sent hsent⟩

/-! ## Whole runs -/

/-- A transfer in which the client is the master. -/
structure Mastering (total : Nat) (c : Client) : Prop extends Exact c where
  ismaster : c.opts.ismaster = true
  total : c.totalPackets = total

theorem AcksRight.refl (c : Client) : AcksRight c c := ⟨[], (List.append_nil _).symm, by simp⟩

theorem Mastering.step {total : Nat} (h : Mastering total c) {e : Event} (he : BringsUpTo total e) :
    AcksRight c (c.step e) ∧ Mastering total (c.step e) := by
  have hstay : AcksRight c c ∧ Mastering total c := ⟨.refl c, h⟩
  cases e with
  | timeout sent => exact he.elim
  | packet p =>
    obtain ⟨hop, hb, -⟩ := he
    rw [Client.step]
    split
    · rw [turn]
      split
      · rw [onPacket_data hop]
        obtain ⟨⟨hexact, hopts, htotal⟩, hacks⟩ := h.toExact.onData h.ismaster hb
        exact ⟨hacks, hexact, by rw [hopts]; exact h.ismaster, htotal.trans h.total⟩
      · exact hstay
    · exact hstay

theorem Mastering.run {total : Nat} {es : List Event} (h : Mastering total c)
    (hes : ∀ e ∈ es, BringsUpTo total e) :
    AllSteps Client.step (fun c e => AcksRight c (c.step e)) c es := by
  induction es generalizing c with
  | nil => trivial
  | cons e es ih =>
    obtain ⟨hacks, hnext⟩ := h.step (hes e (List.mem_cons_self ..))
    exact ⟨hacks, ih hnext (fun e' he' => hes e' (List.mem_cons_of_mem _ he'))⟩

/-- The first options: there is nothing stored yet, and the bitmap is clear. -/
theorem onOack_mastering {o : Options} (hidle : Idle c) (hw : c.status = .waiting)
    (hopts : c.options p = some (7, o)) (hmaster : o.ismaster = true)
    (hlt : packets o.filesize o.blockSize < 65535)
    (hroom : Room c.heap (packets o.filesize o.blockSize) o.filesize) :
    AcksRight c (c.onOack p) ∧ Mastering (packets o.filesize o.blockSize) (c.onOack p) := by
  obtain ⟨hsize, hsize'⟩ := options_blockSize hopts (by decide) hidle.filesize
  have hblock := hsize' (Or.inl rfl)
  have hfile : o.filesize < 2 ^ 31 := by
    rw [hblock, packets_eq hsize] at hlt
    simp only [minPacket] at hlt
    omega
  obtain ⟨hhigh, -⟩ := place_image_of_room (p := p) hroom
  have hexact := opened_exact (p := p) hidle hfile hblock hroom (by omega)
  have hkept : (c.opened p o).opts = o ∧ (c.opened p o).sent = c.sent := by
    exact ⟨rfl, rfl⟩
  have hmaster' : (c.opened p o).opts.ismaster = true := by rw [hkept.1, hmaster]
  obtain ⟨hnext, hacks⟩ := hexact.acknowledge hmaster' p
  have hk := acknowledge_keeps (c.opened p o) p
  rw [onOack_opens hidle hw hblock hhigh hopts]
  exact ⟨hacks.of_sent hkept.2, hnext, by rw [hk.opts]; exact hmaster', hk.totalPackets⟩

/-! ## Before the options -/

theorem Idle.onData (h : Idle c) (hwait : (c.onData p).status = .waiting) : Idle (c.onData p) := by
  obtain ⟨c₁, hq, -, -, ⟨heq, -, -⟩ | ⟨heq, -⟩ | ⟨hexp, -⟩⟩ := onData_eq c p
  · rw [heq]
    exact h.quiet hq
  · rw [heq] at hwait
    cases hwait
  · -- without options only block 0 is not too large, and it divides by zero
    refine absurd ⟨?_, h.blockSize⟩ hexp.divides
    exact Nat.le_antisymm hexp.number (h.totalPackets ▸ Nat.zero_le _)

theorem Idle.onOack (h : Idle c) (hw : c.status = .waiting)
    (hwait : (c.onOack p).status = .waiting) (hrecvd : (c.onOack p).recvdOack = false) : False := by
  have hturn := onOack_turn hw h.filesize (fun _ => h.image) p
  generalize c.onOack p = c' at hturn hwait hrecvd
  cases hturn with
  | ended hs _ _ =>
    rcases hs with hs | hs
    · cases hs.symm.trans hwait
    · cases hs.symm.trans hwait
  | again _ _ hthere => cases hthere.symm.trans h.recvdOack
  | opened _ _ _ =>
    rw [(acknowledge_keeps _ p).recvdOack] at hrecvd
    cases hrecvd

/-- As long as the client waits for options, nothing is stored. -/
theorem Idle.step (h : Idle c) (e : Event) (hwait : (c.step e).status = .waiting)
    (hrecvd : (c.step e).recvdOack = false) : Idle (c.step e) := by
  by_cases hw : c.status = .waiting
  · have hstep : c.step e = c.turn e := by rw [Client.step, if_pos hw]
    rw [hstep] at hwait hrecvd ⊢
    cases e with
    | timeout sent => exact h.quiet (onTimeout_quiet c sent)
    | packet p =>
      have hfinish : c.finish.status ≠ .waiting := by
        rw [finish]
        simp
      rw [turn] at hwait hrecvd ⊢
      by_cases hawait : c.awaitTftm p = true
      · rw [if_pos hawait] at hwait hrecvd ⊢
        rw [onPacket] at hwait hrecvd ⊢
        by_cases herror : p.opcode = opError
        · rw [if_pos herror] at hwait
          exact absurd hwait hfinish
        rw [if_neg herror] at hwait hrecvd ⊢
        by_cases hoack : p.opcode = opOack
        · rw [if_pos hoack] at hwait hrecvd
          exact (h.onOack hw hwait hrecvd).elim
        rw [if_neg hoack] at hwait hrecvd ⊢
        by_cases hdata : p.opcode = opData
        · rw [if_pos hdata] at hwait ⊢
          exact h.onData hwait
        · rw [if_neg hdata] at hwait
          exact absurd hwait hfinish
      · rw [if_neg hawait]
        exact h
  · have hstep : c.step e = c := by rw [Client.step, if_neg hw]
    rwa [hstep]

/-- The client still waits for options after the event. -/
def StillWaits (c : Client) (e : Event) : Prop :=
  (c.step e).status = .waiting ∧ (c.step e).recvdOack = false

theorem Idle.run {es : List Event} (h : Idle c) (hw : c.status = .waiting)
    (hes : AllSteps Client.step StillWaits c es) : Idle (c.run es) ∧ (c.run es).status = .waiting := by
  induction es generalizing c with
  | nil => exact ⟨h, hw⟩
  | cons e es ih => exact ih (h.step e hes.1.1 hes.1.2) hes.1.1 hes.2

/-- **The acknowledgements of a master.** However long the client has waited for options: after those
    for a file, with room for bitmap and image and the byte behind the bitmap clear, whatever blocks
    come, each acknowledgement is of the last block up to which all have been stored. -/
theorem acks_last_stored (cfg : Config) (heap : Alloc.Heap) (iport : UInt16) (u : Store)
    (before : List Event)
    (hbefore : AllSteps Client.step StillWaits (Client.start cfg heap iport u) before) (o : Options)
    (first : Packet) (es : List Event) :
    let c := (Client.start cfg heap iport u).run before
    c.awaitTftm first = true → first.opcode = opOack → c.options first = some (7, o) →
      o.ismaster = true → Client.packets o.filesize o.blockSize < 65535 →
      Room c.heap (Client.packets o.filesize o.blockSize) o.filesize →
      (∀ e ∈ es, BringsUpTo (Client.packets o.filesize o.blockSize) e) →
      AllSteps Client.step (fun c e => AcksRight c (c.step e)) c (.packet first :: es) := by
  intro c hawait hop hopts hmaster hlt hroom hes
  obtain ⟨hw, hidle⟩ := start_idle cfg heap iport u
  obtain ⟨hidle', hw'⟩ := hidle.run hw hbefore
  obtain ⟨hacks, hmastering⟩ := onOack_mastering hidle' hw' hopts hmaster hlt hroom
  rw [← onPacket_oack hop, ← step_packet hw' hawait] at hacks hmastering
  exact ⟨hacks, hmastering.run hes⟩

/-- Two blocks that come in the wrong order, and the second one again. -/
theorem two_blocks_acknowledged :
    AllSteps Client.step (fun c e => AcksRight c (c.step e)) smallClient
      [.packet (smallOack "1026"), .packet (smallPacket [0, 3, 0, 2, 1, 2]),
        .packet (smallPacket [0, 3, 0, 2, 1, 2]),
        .packet (smallPacket ([0, 3, 0, 1] ++ List.replicate 1024 0))] := by
  have hopts : smallClient.options (smallOack "1026") = some (7, ⟨1026, 1024, 0xef010101, 1758, true⟩) := by
    decide +kernel
  have hroom : Room ⟨0x400000, 0x100000, 0x400000, fun _ => 0⟩ (packets 1026 1024) 1026 :=
    ⟨⟨by decide, by decide, by decide, by decide⟩, rfl⟩
  refine acks_last_stored _ _ _ _ [] trivial _ _ _ (by decide +kernel) (by decide +kernel) hopts rfl
    (by decide) hroom ?_
  simp only [List.forall_mem_cons]
  exact ⟨⟨by decide +kernel, by decide +kernel, by decide +kernel⟩,
    ⟨by decide +kernel, by decide +kernel, by decide +kernel⟩,
    ⟨by decide +kernel, by decide +kernel, by decide +kernel⟩, by simp⟩

end Tftm
