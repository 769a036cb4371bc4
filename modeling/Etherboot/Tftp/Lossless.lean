import Etherboot.Tftp.Integrity

set_option autoImplicit false

/-! # Downloads that go through, and their block numbers

On a network that loses nothing a download runs to its end: `reachable_calls` gives, for every file
and block size, a run in which any number of its blocks have been passed on. This shows that the
safety results are not about runs that do not exist, and it is where the block numbers are seen to
wrap: `blockidx` has 16 bits, and so has the number passed to `fnc`. -/

namespace Tftp

open Memory Transition Client

/-- A packet with the payload `bytes`, zeros behind it. -/
def packetOf (src dst : UInt16) (bytes : List UInt8) : Packet :=
  ⟨src, dst, UInt16.ofNat (8 + bytes.length), fun i => (bytes[i]?).getD 0⟩

theorem packetOf_carries (src dst : UInt16) (bytes : List UInt8) (h : 8 + bytes.length < 65536) :
    (packetOf src dst bytes).Carries bytes := by
  refine ⟨?_, ?_⟩
  · simp only [packetOf, UInt16.toNat_ofNat']
    omega
  · apply List.ext_getElem
    · simp
    · intro i _ hi
      simp [Store.slice, packetOf, hi]

section Run

variable {F : List UInt8} {b : Nat}

/-- The digits of a block size. -/
def blksizeDigits (b : Nat) : List UInt8 :=
  [UInt8.ofNat (48 + b / 1000), UInt8.ofNat (48 + b / 100 % 10), UInt8.ofNat (48 + b / 10 % 10),
    UInt8.ofNat (48 + b % 10)]

theorem oack_blksizeDigits (hb : b ≤ maxPacket) :
    Oack b (blksizeText ++ 0 :: (blksizeDigits b ++ [0])) := by
  simp only [maxPacket] at hb
  refine ⟨blksizeText, blksizeDigits b, rfl, rfl, ?_, ?_, by simp [blksizeText, blksizeDigits, defaultsizePacket]⟩
  · simp only [blksizeDigits, List.mem_cons, List.not_mem_nil, or_false, Text.isDigit]
    rintro d (rfl | rfl | rfl | rfl) <;> simp only [UInt8.toNat_ofNat'] <;> omega
  · simp only [decimal, blksizeDigits, List.foldl_cons, List.foldl_nil, UInt8.toNat_ofNat']
    omega

theorem payload_short (hhi : b ≤ maxPacket) (n : Nat) : 8 + ((Msg.data n).payload F b).length < 65536 := by
  have hlen := length_chunk F b n
  simp only [maxPacket] at hhi
  simp only [Msg.payload, List.length_append, List.length_cons, List.length_nil]
  omega

/-- The client gets the next block: it passes it on, acknowledges it from where it is, and goes on
    waiting if there is more. -/
theorem step_next_block {c : Client} (hlo : defaultsizePacket ≤ b) (hhi : b ≤ maxPacket)
    (hinv : ClientInv F b c) (hwait : c.status = .waiting) (hsize : c.st.blksize = b)
    (hmore : c.calls.length < blockCount F b) (tid : UInt16) :
    ∃ c', c.step (.packet (packetOf tid c.st.lport
          ((Msg.data (c.calls.length + 1)).payload F b)) 1) = c' ∧
      c'.calls.length = c.calls.length + 1 ∧ c'.st.lport = c.st.lport ∧
      .sent (c.calls.length + 1) ⟨c.st.lport, tid, .ack (UInt16.ofNat (c.calls.length + 1))⟩ ∈ c'.log ∧
      (c.calls.length + 1 < blockCount F b → c'.status = .waiting) := by
  have hpos : 0 < b := by simp only [defaultsizePacket] at hlo; omega
  have hcarries := packetOf_carries tid c.st.lport _ (payload_short (F := F) hhi (c.calls.length + 1))
  have hidx : c.st.blockidx + 1 = UInt16.ofNat (c.calls.length + 1) := by
    rw [hinv.blockidx, UInt16.ofNat_add]
    rfl
  have hnum : (c.calls.length + 1) % 65536 = (c.st.blockidx + 1).toNat := by
    rw [hidx, UInt16.toNat_ofNat']
  obtain ⟨blk, hblk, hturn⟩ := onPacket_data_next c.request hcarries (Nat.succ_pos _) hmore hpos hhi
    hsize hnum
  refine ⟨_, rfl, ?_, ?_, ?_, fun hnext => ?_⟩
  all_goals rw [step_packet hwait rfl, hturn]
  · simp [turn, receive, sendAck, transmit, Outcome.delivered]
  · rfl
  · rw [← hidx]
    exact List.mem_append_right _ (List.mem_singleton_self _)
  · have heof : blk.eof = false := by
      by_contra htrue
      have hlast := hblk.eof.mp (by simpa using htrue)
      omega
    simp [turn, Turn.status, sendAck, transmit, heof]
    omega

theorem step_oack (c : Client) (rq : Request) {opts : List UInt8} (hopts : Oack b opts)
    (hlo : defaultsizePacket ≤ b) (hb : b ≤ rq.blksize.toNat) (hwait : c.status = .waiting)
    (hrequest : c.request = some rq) (hidx : c.st.blockidx = 0) (hcalls : c.calls = [])
    (tid : UInt16) :
    ∃ c', c.step (.packet (packetOf tid c.st.lport ((Msg.oack opts).payload F b)) 1) = c' ∧
      c'.calls = [] ∧ c'.st.lport = c.st.lport ∧ .sent 0 ⟨c.st.lport, tid, .ack 0⟩ ∈ c'.log ∧
      c'.status = .waiting := by
  obtain ⟨-, -, -, -, -, -, hshort⟩ := id hopts
  simp only [defaultsizePacket] at hshort
  have hlen : 8 + ((Msg.oack opts).payload F b).length < 65536 := by
    simp only [Msg.payload, List.length_append, List.length_cons, List.length_nil]
    omega
  have hcarries := packetOf_carries tid c.st.lport _ hlen
  -- behind the packet there are zeros, so the scan ends
  have hzero : (packetOf tid c.st.lport ((Msg.oack opts).payload F b)).body (2 + opts.length) = 0 := by
    simp [packetOf, Msg.payload, Nat.add_comm]
  have hturn : onPacket c.st c.request (packetOf tid c.st.lport ((Msg.oack opts).payload F b))
      = sendAck { c.st.noted (packetOf tid c.st.lport ((Msg.oack opts).payload F b)) with
          blksize := b } .wait := by
    rw [hrequest]
    refine (onPacket_oack hcarries hopts hlo hb hidx).resolve_left (fun hhung => ?_)
    rw [run_skipString_zero hzero] at hhung
    cases hhung.2
  refine ⟨_, rfl, ?_, ?_, ?_, ?_⟩
  all_goals rw [step_packet hwait rfl, hturn]
  · simp [turn, receive, sendAck, transmit, Outcome.delivered, hcalls]
  · rfl
  · simp [turn, receive, sendAck, transmit, Outcome.delivered, hcalls, hidx, Statics.noted, packetOf]
  · rfl

/-- A download under way: the client has `k` blocks and waits, and one transfer is at the next. -/
structure Cruising (F : List UInt8) (b : Nat) (w : World) (k : Nat) : Prop where
  reachable : (system F b).Reachable w
  count : w.client.calls.length = k
  waiting : w.client.status = .waiting
  transfer : ∃ tid, w.transfers = [⟨tid, w.client.st.lport, k + 1⟩]

section

variable (hlo : defaultsizePacket ≤ b) (hhi : b ≤ maxPacket)

include hlo hhi

theorem Cruising.next {w : World} {k : Nat}
    (h : Cruising F b w k) (hk : k < blockCount F b) :
    (∃ w', (system F b).Reachable w' ∧ w'.client.calls.length = k + 1) ∧
      (k + 1 < blockCount F b → ∃ w', Cruising F b w' (k + 1)) := by
  obtain ⟨hreach, rfl, hwait, tid, htransfer⟩ := h
  have hinv := worldInv_reachable hlo hhi hreach
  have hmem : (⟨tid, w.client.st.lport, w.client.calls.length + 1⟩ : Transfer) ∈ w.transfers := by
    simp [htransfer]
  have hsize := hinv.client.negotiated hwait ((hinv.transfers _ hmem).2.2 (Nat.succ_pos _))
  obtain ⟨c', hstep, hcount, hport, hack, hstill⟩ :=
    step_next_block hlo hhi hinv.client hwait hsize hk tid
  have hsent := hreach.step (Step.sendData w _ hmem (Nat.succ_pos _))
  have hdelivered := hsent.step (Step.deliver _
    ⟨tid, w.client.st.lport, .data (w.client.calls.length + 1)⟩ _ 1
    (List.mem_append_right _ (List.mem_singleton_self _)) rfl rfl
    (packetOf_carries tid w.client.st.lport _ (payload_short hhi _))
    (fun n hn => by cases hn; exact Nat.lt_add_right _ (Nat.lt_succ_self _)))
  simp only [hstep] at hdelivered
  refine ⟨⟨_, hdelivered, hcount⟩, fun hmore => ?_⟩
  exact ⟨_, hdelivered.step (Step.acked _ [] [] _ _ _ htransfer hack rfl rfl rfl
    (Nat.lt_add_of_pos_right (by decide)) hmore), hcount, hstill hmore, tid, by rw [hport]; rfl⟩

theorem exists_cruising : ∃ w, Cruising F b w 0 := by
  obtain ⟨c, hc⟩ : ∃ c, c = start ⟨2000, 69, .ack 0, 0, 0, 0⟩ [] true := ⟨_, rfl⟩
  have hstart : (system F b).Reachable ⟨c, [], []⟩ := .init ⟨_, _, _, by rw [hc]⟩
  have hopts := oack_blksizeDigits hhi
  obtain ⟨c', hstep, hcalls, hport, hack, hwait⟩ := step_oack (F := F) c (tftpRequest []) hopts hlo
    hhi (by rw [hc]; rfl) (by rw [hc]; rfl) (by rw [hc]; rfl) (by rw [hc]; rfl) 4000
  have hopen := hstart.step (Step.request _ 0 ⟨c.st.lport, tftpPort, .rrq [] 1432⟩ [] _ 4000 0
    (by rw [hc]; exact List.mem_singleton_self _) rfl (Or.inl rfl))
  have hsent := hopen.step (Step.sendOack _ ⟨4000, c.st.lport, 0⟩ _ (List.mem_singleton_self _) rfl
    hopts)
  have hdelivered := hsent.step (Step.deliver _ ⟨4000, c.st.lport, .oack _⟩ _ 1
    (List.mem_singleton_self _) rfl rfl (packetOf_carries 4000 c.st.lport _ (by
      simp [Msg.payload, blksizeText, blksizeDigits])) (fun n hn => by cases hn))
  simp only [hstep] at hdelivered
  exact ⟨_, hdelivered.step (Step.acked _ [] [] ⟨4000, c.st.lport, 0⟩ _ _ rfl hack rfl rfl rfl
    (Nat.two_pow_pos 15) (Nat.succ_pos _)), by rw [hcalls]; rfl, hwait, 4000, by rw [hport]; rfl⟩

/-- **Downloads go through.** For every file and block size there is a run in which any number of the
    file's blocks have been passed on, up to all of them. -/
theorem reachable_calls {k : Nat}
    (hk : k ≤ blockCount F b) : ∃ w, (system F b).Reachable w ∧ w.client.calls.length = k := by
  have hcruise : ∀ k < blockCount F b, ∃ w, Cruising F b w k := by
    intro k
    induction k with
    | zero => exact fun _ => exists_cruising hlo hhi
    | succ k ih =>
      intro hlt
      obtain ⟨w, hw⟩ := ih (Nat.lt_of_succ_lt hlt)
      exact (hw.next hlo hhi (Nat.lt_of_succ_lt hlt)).2 hlt
  cases k with
  | zero =>
    obtain ⟨w, hw⟩ := hcruise 0 (Nat.succ_pos _)
    exact ⟨w, hw.reachable, hw.count⟩
  | succ k =>
    obtain ⟨w, hw⟩ := hcruise k hk
    exact (hw.next hlo hhi hk).1

end

end Run

/-! ## The end of the file -/

theorem shortFile_integrity : ∃ w, (system [1, 2, 3] 512).Reachable w ∧
    (w.client.calls.map BlockInfo.bytes).flatten = [1, 2, 3] := by
  obtain ⟨w, hreach, hcount⟩ := reachable_calls (F := [1, 2, 3]) (b := 512) (k := 1) (by decide)
    (by decide) (by decide)
  have hbytes := (download_integrity [1, 2, 3] 512 (by decide) (by decide) w hreach).1
  rw [hcount] at hbytes
  exact ⟨w, hreach, hbytes⟩

/-- A file of one full block: once that has been passed on the prefix is the whole file, but `eof` has
    not been passed. It comes with an empty block after it. -/
theorem fullBlock_without_eof : ∃ w, (system (List.replicate 512 0) 512).Reachable w ∧
    (w.client.calls.map BlockInfo.bytes).flatten = List.replicate 512 0 ∧
    ∀ c ∈ w.client.calls, c.eof = false := by
  have hcount : blockCount (List.replicate 512 (0 : UInt8)) 512 = 2 := by
    rw [blockCount, List.length_replicate]
  obtain ⟨w, hreach, hone⟩ := reachable_calls (F := List.replicate 512 0) (b := 512) (k := 1)
    (by decide) (by decide) (by rw [hcount]; decide)
  have hinv := (worldInv_reachable (by decide) (by decide) hreach).client
  refine ⟨w, hreach, ?_, fun c hc => ?_⟩
  · rw [hinv.flatten, hone, Nat.one_mul, List.take_of_length_le (Nat.le_of_eq List.length_replicate)]
  · obtain ⟨i, hi, rfl⟩ := List.mem_iff_getElem.mp hc
    have heof := (hinv.blocks i _ (List.getElem?_eq_getElem hi)).eof
    by_contra htrue
    have := heof.mp (by simpa using htrue)
    omega

/-! ## Lock step -/

/-- **Client and servers go in lock step.** In every run no transfer of the server, and no block under way,
    is more than one block ahead of what the client has passed on, or behind the end of the file; and every
    acknowledgement carried the number of blocks that the client had then passed on. -/
theorem lock_step (F : List UInt8) (b : Nat) (hlo : defaultsizePacket ≤ b) (hhi : b ≤ maxPacket) (w : World)
    (h : (system F b).Reachable w) :
    (∀ t ∈ w.transfers, t.n ≤ min (w.client.calls.length + 1) (blockCount F b)) ∧
      (∀ f ∈ w.wire, ∀ n, f.msg = .data n → n ≤ min (w.client.calls.length + 1) (blockCount F b)) ∧
      ∀ k m a, .sent k m ∈ w.client.log → m.xmit = .ack a →
        a = UInt16.ofNat k ∧ k ≤ w.client.calls.length := by
  have hinv := worldInv_reachable hlo hhi h
  refine ⟨fun t ht => ?_, fun f hf n hn => ?_, hinv.client.acks⟩
  · exact le_min (hinv.transfers t ht).1 (hinv.transfers t ht).2.1
  · have hmsg := hinv.wire f hf
    rw [hn] at hmsg
    exact le_min hmsg.2.1 hmsg.2.2.1

theorem shortFile_lock_step : ∃ w, (system [1, 2, 3] 512).Reachable w ∧ w.client.calls.length = 1 ∧
    ∀ t ∈ w.transfers, t.n ≤ 1 := by
  obtain ⟨w, hreach, hcount⟩ := reachable_calls (F := [1, 2, 3]) (b := 512) (k := 1) (by decide)
    (by decide) (by decide)
  have hlock := lock_step [1, 2, 3] 512 (by decide) (by decide) w hreach
  exact ⟨w, hreach, hcount, fun t ht => (hlock.1 t ht).trans (Nat.min_le_right _ _)⟩

/-! ## Block numbers -/

/-- **Block numbers.** For every file and block size: in every run the `k`-th call of `fnc` gets block
    number `k`, if and only if the file has fewer than 65536 blocks. -/
theorem block_numbers_iff (F : List UInt8) (b : Nat) (hlo : defaultsizePacket ≤ b)
    (hhi : b ≤ maxPacket) :
    (∀ w, (system F b).Reachable w → ∀ i c, w.client.calls[i]? = some c → c.block = i + 1) ↔
      blockCount F b < 65536 := by
  constructor
  · intro h
    by_contra hmany
    obtain ⟨w, hreach, hcount⟩ := reachable_calls (F := F) hlo hhi (k := 65536) (by omega)
    have hget := List.getElem?_eq_getElem (l := w.client.calls) (i := 65535) (by omega)
    have hnumber := ((worldInv_reachable hlo hhi hreach).client.blocks _ _ hget).block
    have hclaim := h w hreach _ _ hget
    omega
  · intro hfew w hreach i c hget
    have hblk := (worldInv_reachable hlo hhi hreach).client.blocks i c hget
    rw [hblk.block, Nat.mod_eq_of_lt]
    have := hblk.le
    omega

theorem threeBlocks_block_numbers :
    blockCount (List.replicate 1200 0) 512 = 3 ∧
      ∃ w, (system (List.replicate 1200 0) 512).Reachable w ∧ w.client.calls.length = 3 ∧
        ∀ i c, w.client.calls[i]? = some c → c.block = i + 1 := by
  have hcount : blockCount (List.replicate 1200 (0 : UInt8)) 512 = 3 := by
    rw [blockCount, List.length_replicate]
  obtain ⟨w, hreach, hall⟩ := reachable_calls (F := List.replicate 1200 0) (b := 512) (k := 3) (by decide)
    (by decide) (Nat.le_of_eq hcount.symm)
  have hfew : blockCount (List.replicate 1200 (0 : UInt8)) 512 < 65536 := hcount ▸ by decide
  exact ⟨hcount, w, hreach, hall, (block_numbers_iff _ 512 (by decide) (by decide)).mpr hfew w hreach⟩

/-- A file of 32 MiB in blocks of 512 bytes: its last block, the 65537th, is passed on as block 1. -/
theorem longFile_block_one : ∃ w, (system (List.replicate 33554432 0) 512).Reachable w ∧
    ∃ c, w.client.calls[65536]? = some c ∧ c.block = 1 := by
  have hcount : blockCount (List.replicate 33554432 (0 : UInt8)) 512 = 65537 := by
    rw [blockCount, List.length_replicate]
  obtain ⟨w, hreach, hall⟩ := reachable_calls (F := List.replicate 33554432 0) (b := 512)
    (k := 65537) (by decide) (by decide) (Nat.le_of_eq hcount.symm)
  have hget := List.getElem?_eq_getElem (l := w.client.calls) (i := 65536) (by omega)
  have hblk := (worldInv_reachable (by decide) (by decide) hreach).client.blocks _ _ hget
  exact ⟨w, hreach, _, hget, hblk.block⟩

end Tftp
