import Etherboot.Tftp.System

set_option autoImplicit false

/-! # The file arrives in order

`ClientInv` ties the client's static variables to what it has passed on: `blockidx` is the number of
blocks modulo `2^16`, and once anything has been acknowledged `blksize` is the server's. `WorldInv`
adds that the server is at most one block ahead and that all data in flight is of that kind. With the
bound on delays this makes the next block the only one whose number the client takes. -/

namespace Tftp

open Memory Transition Client

/-! ## Packets of the server -/

section Packets

variable {F : List UInt8} {b : Nat} {p : Packet}

theorem Packet.Carries.recvlen {c0 c1 : UInt8} {rest : List UInt8} (h : p.Carries (c0 :: c1 :: rest))
    (hshort : rest.length < 65536 - 10) : p.recvlen = rest.length := by
  have hlen := h.len
  simp only [List.length_cons] at hlen
  unfold Packet.recvlen
  omega

theorem Packet.Carries.opcode {c0 c1 : UInt8} {rest : List UInt8} (h : p.Carries (c0 :: c1 :: rest)) :
    p.opcode = 256 * c0.toNat + c1.toNat := by
  obtain ⟨h0, hrest⟩ := Store.has_cons.mp h.body
  obtain ⟨h1, -⟩ := Store.has_cons.mp hrest
  simp only [Packet.opcode, be16, h0, h1]

theorem Packet.Carries.rest {c0 c1 : UInt8} {rest : List UInt8} (h : p.Carries (c0 :: c1 :: rest)) :
    p.body.Has 2 rest :=
  (Store.has_cons.mp (Store.has_cons.mp h.body).2).2

theorem Packet.Carries.data {n : Nat} (h : p.Carries ((Msg.data n).payload F b)) (hb : b ≤ maxPacket) :
    p.opcode = opData ∧ be16 p.body 2 = n % 65536 ∧ p.recvlen = (chunk F b n).length + 2 ∧
      p.body.slice 4 (chunk F b n).length = chunk F b n := by
  have hlen := length_chunk F b n
  have hcarries : p.Carries (0 :: 3 :: (UInt8.ofNat (n / 256) :: UInt8.ofNat n :: chunk F b n)) := h
  obtain ⟨h2, hrest⟩ := Store.has_cons.mp hcarries.rest
  obtain ⟨h3, hchunk⟩ := Store.has_cons.mp hrest
  refine ⟨by rw [hcarries.opcode]; rfl, ?_, ?_, hchunk⟩
  · simp only [be16, h2, h3, UInt8.toNat_ofNat']
    omega
  · rw [hcarries.recvlen]
    · simp
    · simp only [List.length_cons, maxPacket] at hb ⊢
      omega

end Packets

/-! ## One packet -/

section OnePacket

variable {F : List UInt8} {b : Nat} {s : Statics} {request : Option Request} {p : Packet}

/-- The data of a call of `fnc`. -/
def BlockInfo.bytes (c : BlockInfo) : List UInt8 := c.data.slice 0 c.len

/-- A call of `fnc` with block `n` of the file. -/
structure BlockOk (F : List UInt8) (b n : Nat) (c : BlockInfo) : Prop where
  le : n ≤ blockCount F b
  bytes : c.bytes = chunk F b n
  eof : c.eof = true ↔ n = blockCount F b
  block : c.block = n % 65536

/-- A data packet with another number than the next is acknowledged and otherwise ignored. -/
theorem onPacket_data_other {n : Nat} (hp : p.Carries ((Msg.data n).payload F b))
    (hb : b ≤ maxPacket) (hn : n % 65536 ≠ (s.blockidx + 1).toNat) :
    onPacket s request p = sendAck (s.noted p) .wait := by
  obtain ⟨hop, hnum, -, -⟩ := hp.data hb
  rw [onPacket_opData hop, onData, hnum]
  exact if_pos hn

theorem onPacket_data_next (request : Option Request) {n : Nat} (hp : p.Carries ((Msg.data n).payload F b)) (hpos : 0 < n)
    (hle : n ≤ blockCount F b) (hlo : 0 < b) (hb : b ≤ maxPacket) (hsize : s.blksize = b)
    (hn : n % 65536 = (s.blockidx + 1).toNat) :
    ∃ c, BlockOk F b n c ∧ onPacket s request p = sendAck
      { s.noted p with blockidx := s.blockidx + 1, blksize := if c.eof then 0 else b } (.block c) := by
  obtain ⟨hop, hnum, hlen, hbytes⟩ := hp.data hb
  have hchunk := length_chunk F b n
  simp only [maxPacket] at hb
  have hlen32 : (p.recvlen + (2 ^ 32 - 2)) % 2 ^ 32 = (chunk F b n).length := by omega
  have hmod : (chunk F b n).length % 65536 = (chunk F b n).length := Nat.mod_eq_of_lt (by omega)
  refine ⟨⟨fun i => p.body (4 + i), (s.blockidx + 1).toNat, (chunk F b n).length,
    decide (((chunk F b n).length : Int) < b)⟩, ⟨hle, ?_, ?_, hn.symm⟩, ?_⟩
  · rw [← hbytes, BlockInfo.bytes, Store.length_slice]
    exact Store.slice_congr (fun k _ => by rw [Nat.zero_add])
  · rw [← length_chunk_lt_iff hlo hpos hle]
    simp
  · have hfits : ¬ p.recvlen > (((b : Int) + 2) % 2 ^ 32).toNat := by omega
    rw [onPacket_opData hop, onData, hnum]
    simp only [Statics.noted_blockidx, Statics.noted_blksize, hsize, if_neg (not_not.mpr hn),
      if_neg hfits, hlen32, hmod]

/-- An option acknowledgement in time sets the block size, unless the scan of it does not end. -/
theorem onPacket_oack {opts : List UInt8} {rq : Request}
    (hp : p.Carries ((Msg.oack opts).payload F b)) (hopts : Oack b opts)
    (hlo : defaultsizePacket ≤ b) (hb : b ≤ rq.blksize.toNat) (hidx : s.blockidx = 0) :
    (onPacket s (some rq) p = ⟨s.noted p, [], .hung⟩ ∧
        ((skipString scanLimit (2 + opts.length)).run p.body).1 = none) ∨
      onPacket s (some rq) p = sendAck { s.noted p with blksize := b } .wait := by
  have hcarries : p.Carries (0 :: 6 :: opts) := hp
  obtain ⟨-, -, -, -, -, -, hshort⟩ := id hopts
  have hrq := rq.blksize.toNat_lt
  simp only [defaultsizePacket] at hlo hshort
  have hop : p.opcode = opOack := by rw [hcarries.opcode]; rfl
  have hread := oackBlksize_granted hopts (by omega) (by omega) hcarries.rest s.blksize
  have hlen : p.recvlen = opts.length := hcarries.recvlen (by omega)
  rw [onPacket_opOack hop]
  simp only [onOack, Statics.noted_blockidx, Statics.noted_blksize, if_neg (not_not.mpr hidx), hlen, hread]
  cases (Prog.run (skipString scanLimit (2 + opts.length)) p.body).1 with
  | none => exact Or.inl ⟨rfl, rfl⟩
  | some q =>
    refine Or.inr ?_
    have hrange : ¬ ((b : Int) < defaultsizePacket ∨ (b : Int) > rq.blksize.toNat) := by
      simp only [defaultsizePacket]
      omega
    simp only [Option.map_some, if_neg hrange]

theorem onPacket_oack_late {opts : List UInt8} (hp : p.Carries ((Msg.oack opts).payload F b)) :
    onPacket s none p = sendAck (s.noted p) .wait := by
  have hcarries : p.Carries (0 :: 6 :: opts) := hp
  have hop : p.opcode = opOack := by rw [hcarries.opcode]; rfl
  rw [onPacket_opOack hop, onOack]

theorem onPacket_error (s : Statics) (request : Option Request) {text : List UInt8}
    (hp : p.Carries ((Msg.error text).payload F b)) :
    ∃ rc, onPacket s request p = ⟨s.noted p, [], .ret rc⟩ := by
  have hcarries : p.Carries (0 :: 5 :: text) := hp
  have hop : p.opcode = opError := by rw [hcarries.opcode]; rfl
  exact ⟨_, onPacket_opError hop s request⟩

end OnePacket

/-! ## The client -/

/-- An acknowledgement has been sent. -/
def HasAck (log : List Act) : Prop := ∃ k m a, .sent k m ∈ log ∧ m.xmit = .ack a

theorem HasAck.mono {log log' : List Act} (h : HasAck log) (hsub : ∀ a ∈ log, a ∈ log') : HasAck log' := by
  obtain ⟨k, m, a, hmem, hack⟩ := h
  exact ⟨k, m, a, hsub _ hmem, hack⟩

section ClientInv

variable {F : List UInt8} {b : Nat} {c : Client}

/-- What ties the client's variables to the blocks it has passed on. -/
structure ClientInv (F : List UInt8) (b : Nat) (c : Client) : Prop where
  blocks : ∀ i blk, c.calls[i]? = some blk → BlockOk F b (i + 1) blk
  blockidx : c.st.blockidx = UInt16.ofNat c.calls.length
  request : ∀ rq, c.request = some rq → c.calls = [] ∧ rq.blksize.toNat = maxPacket
  noRequest : c.request = none → HasAck c.log
  xmit : ∀ a, c.st.xmit = .ack a → a = c.st.blockidx ∧ HasAck c.log
  acks : ∀ k m a, .sent k m ∈ c.log → m.xmit = .ack a → a = UInt16.ofNat k ∧ k ≤ c.calls.length
  blksize : c.status = .waiting →
    c.st.blksize = b ∨ c.st.blksize = defaultsizePacket ∧ ¬ HasAck c.log

theorem ClientInv.negotiated (h : ClientInv F b c) (hwait : c.status = .waiting)
    (hacked : b = defaultsizePacket ∨ HasAck c.log) : c.st.blksize = b := by
  rcases h.blksize hwait with hb | ⟨hdefault, hnone⟩
  · exact hb
  · rcases hacked with rfl | hack
    · exact hdefault
    · exact absurd hack hnone

theorem hasAck_receive : HasAck c.receive.log ↔ HasAck c.log := by
  simp [HasAck, receive]

theorem ClientInv.receive (h : ClientInv F b c) : ClientInv F b c.receive where
  blocks := h.blocks
  blockidx := h.blockidx
  request := h.request
  noRequest hrq := hasAck_receive.mpr (h.noRequest hrq)
  xmit a ha := ⟨(h.xmit a ha).1, hasAck_receive.mpr (h.xmit a ha).2⟩
  acks k m a hm := h.acks k m a (by simpa [Client.receive] using hm)
  blksize hwait := (h.blksize hwait).imp_right (fun hd => ⟨hd.1, fun ha => hd.2 (hasAck_receive.mp ha)⟩)

theorem ClientInv.stop (h : ClientInv F b c) {t : Turn} (rc : Int)
    (hidx : t.st.blockidx = c.st.blockidx) (hxmit : t.st.xmit = c.st.xmit) (hsent : t.sent = [])
    (hdelivered : t.out.delivered = []) (hstatus : t.status rc ≠ .waiting) :
    ClientInv F b (c.turn t rc) := by
  have hlog : (c.turn t rc).log = c.log := by simp [turn, hsent]
  have hcalls : (c.turn t rc).calls = c.calls := by simp [turn, hdelivered]
  have hrequest : (c.turn t rc).request = c.request := by simp [turn, hdelivered]
  refine ⟨?_, ?_, ?_, ?_, ?_, ?_, fun hwait => absurd hwait hstatus⟩
  · rw [hcalls]; exact h.blocks
  · rw [hcalls, ← h.blockidx]; exact hidx
  · rw [hcalls, hrequest]; exact h.request
  · rw [hlog, hrequest]; exact h.noRequest
  · rw [hlog]
    intro a ha
    obtain ⟨hb, hack⟩ := h.xmit a (hxmit ▸ ha)
    exact ⟨hb.trans hidx.symm, hack⟩
  · rw [hlog, hcalls]; exact h.acks

theorem ClientInv.resend (h : ClientInv F b c) (hwait : c.status = .waiting) {s : Statics}
    (hidx : s.blockidx = c.st.blockidx) (hxmit : s.xmit = c.st.xmit)
    (hsize : s.blksize = c.st.blksize) : ClientInv F b (c.turn (transmit s .wait) 0) := by
  have hlog : (c.turn (transmit s .wait) 0).log
      = c.log ++ [.sent c.calls.length ⟨s.lport, s.rport, s.xmit⟩] := rfl
  have hcalls : (c.turn (transmit s .wait) 0).calls = c.calls := List.append_nil _
  have hmono : HasAck c.log → HasAck (c.turn (transmit s .wait) 0).log := by
    exact fun ha => ha.mono (fun _ hm => List.mem_append_left _ hm)
  have hback : HasAck (c.turn (transmit s .wait) 0).log → HasAck c.log := by
    rintro ⟨k, m, a, hm, hack⟩
    rw [hlog, List.mem_append, List.mem_singleton] at hm
    rcases hm with hm | hm
    · exact ⟨k, m, a, hm, hack⟩
    · -- what is sent again has been sent before
      cases hm
      exact (h.xmit a (hxmit ▸ hack)).2
  refine ⟨?_, ?_, ?_, fun hrq => hmono (h.noRequest hrq), ?_, ?_, fun _ => ?_⟩
  · rw [hcalls]; exact h.blocks
  · rw [hcalls, ← h.blockidx]; exact hidx
  · rw [hcalls]; exact h.request
  · intro a ha
    obtain ⟨hb, hack⟩ := h.xmit a (hxmit ▸ ha)
    exact ⟨hb.trans hidx.symm, hmono hack⟩
  · intro k m a hm hack
    rw [hlog, List.mem_append, List.mem_singleton] at hm
    rw [hcalls]
    rcases hm with hm | hm
    · exact h.acks k m a hm hack
    · cases hm
      obtain ⟨rfl, -⟩ := h.xmit a (hxmit ▸ hack)
      exact ⟨h.blockidx, Nat.le_refl _⟩
  · show s.blksize = b ∨ s.blksize = defaultsizePacket ∧ _
    rw [hsize]
    exact (h.blksize hwait).imp_right (fun hd => ⟨hd.1, fun ha => hd.2 (hback ha)⟩)

theorem ClientInv.sendAck (h : ClientInv F b c) {s : Statics} {out : Outcome} (rc : Int)
    (hout : out = .wait ∨ ∃ blk, out = .block blk ∧ BlockOk F b (c.calls.length + 1) blk)
    (hidx : s.blockidx = UInt16.ofNat (c.calls.length + out.delivered.length))
    (hsize : (Tftp.sendAck s out).status rc = .waiting → s.blksize = b) :
    ClientInv F b (c.turn (Tftp.sendAck s out) rc) := by
  have hlog : (c.turn (Tftp.sendAck s out) rc).log = c.log ++
      [.sent (c.calls.length + out.delivered.length) ⟨s.lport, s.rport, .ack s.blockidx⟩] := rfl
  have hcalls : (c.turn (Tftp.sendAck s out) rc).calls = c.calls ++ out.delivered := rfl
  have hack : HasAck (c.turn (Tftp.sendAck s out) rc).log :=
    ⟨_, _, s.blockidx, by rw [hlog]; exact List.mem_append_right _ (List.mem_singleton_self _), rfl⟩
  refine ⟨?_, ?_, ?_, fun _ => hack, ?_, ?_, fun hwait => Or.inl (hsize hwait)⟩
  · intro i blk hget
    rw [hcalls] at hget
    by_cases hi : i < c.calls.length
    · rw [List.getElem?_append_left hi] at hget
      exact h.blocks i blk hget
    · rw [List.getElem?_append_right (by omega)] at hget
      rcases hout with rfl | ⟨blk', rfl, hblk⟩
      · exact absurd hget (by simp [Outcome.delivered])
      · have hzero : i - c.calls.length = 0 := by
          by_contra hne
          rw [List.getElem?_eq_none (by simp [Outcome.delivered]; omega)] at hget
          cases hget
        rw [hzero] at hget
        obtain rfl : blk' = blk := by simpa [Outcome.delivered] using hget
        rwa [show i = c.calls.length by omega]
  · rw [hcalls, List.length_append]
    exact hidx
  · intro rq hrq
    rcases hout with rfl | ⟨blk, rfl, -⟩
    · rw [hcalls]
      simpa [Outcome.delivered] using h.request rq hrq
    · exact absurd hrq (by simp [turn, Tftp.sendAck, transmit, Outcome.delivered])
  · intro a ha
    have ha' : Xmit.ack s.blockidx = .ack a := ha
    simp only [Xmit.ack.injEq] at ha'
    exact ⟨ha'.symm, hack⟩
  · intro k m a hm hma
    rw [hlog, List.mem_append, List.mem_singleton] at hm
    rw [hcalls, List.length_append]
    rcases hm with hm | hm
    · obtain ⟨ha, hk⟩ := h.acks k m a hm hma
      exact ⟨ha, by omega⟩
    · cases hm
      simp only [Xmit.ack.injEq] at hma
      exact ⟨hma ▸ hidx, Nat.le_refl _⟩

/-- The messages a client may get: the server's option list, or a block at most one ahead. -/
def MsgOk (F : List UInt8) (b : Nat) (c : Client) : Msg → Prop
  | .oack opts => Oack b opts
  | .data n => 0 < n ∧ n ≤ c.calls.length + 1 ∧ n ≤ blockCount F b ∧
      (b = defaultsizePacket ∨ HasAck c.log)
  | .error _ => True

theorem ClientInv.timeout (h : ClientInv F b c) (hwait : c.status = .waiting) (txOk : Bool) :
    ClientInv F b (c.turn (onTimeout c.st txOk) 0) := by
  rcases onTimeout_cases c.st txOk with ⟨⟨rc, hout⟩, hsent, -⟩ | ⟨-, -, hturn⟩
  · have hsame : (onTimeout c.st txOk).st.blockidx = c.st.blockidx ∧
        (onTimeout c.st txOk).st.xmit = c.st.xmit := by
      unfold onTimeout
      repeat' split
      all_goals exact ⟨rfl, rfl⟩
    exact h.stop 0 hsame.1 hsame.2 hsent (by rw [hout]; rfl) (by simp [Turn.status, hout])
  · rw [hturn]
    exact h.resend hwait rfl rfl rfl

/-- The number of the next block, and the only block at most one ahead that has it. -/
theorem next_of_lag {n count : Nat} {idx : UInt16} (hidx : idx = UInt16.ofNat count)
    (hle : n ≤ count + 1) (hlag : count < n + 2 ^ 15) (hn : n % 65536 = (idx + 1).toNat) :
    n = count + 1 := by
  have hsucc : (idx + 1).toNat = (count + 1) % 65536 := by
    rw [hidx, UInt16.toNat_add, UInt16.toNat_ofNat']
    simp
  omega

theorem ClientInv.packet (h : ClientInv F b c) (hwait : c.status = .waiting)
    (hlo : defaultsizePacket ≤ b) (hhi : b ≤ maxPacket) {msg : Msg} {p : Packet}
    (hp : p.Carries (msg.payload F b)) (hmsg : MsgOk F b c msg)
    (hlag : ∀ n, msg = .data n → c.calls.length < n + 2 ^ 15) (rc : Int) :
    ClientInv F b (c.receive.turn (onPacket c.st c.request p) rc) := by
  have hidx : c.st.blockidx = UInt16.ofNat (c.calls.length + 0) := h.blockidx
  cases msg with
  | error text =>
    obtain ⟨code, hturn⟩ := onPacket_error c.st c.request hp
    rw [hturn]
    exact h.receive.stop rc rfl rfl rfl rfl (by simp [Turn.status])
  | oack opts =>
    cases hrq : c.request with
    | none =>
      have hsize := h.negotiated hwait (Or.inr (h.noRequest hrq))
      rw [onPacket_oack_late hp]
      exact h.receive.sendAck rc (Or.inl rfl) hidx (fun _ => hsize)
    | some rq =>
      obtain ⟨hnone, hmax⟩ := h.request rq hrq
      have hzero : c.st.blockidx = 0 := by rw [h.blockidx, hnone]; rfl
      rcases onPacket_oack hp hmsg hlo (hmax ▸ hhi) hzero with ⟨hturn, -⟩ | hturn
      · rw [hturn]
        exact h.receive.stop rc rfl rfl rfl rfl (by simp [Turn.status])
      · rw [hturn]
        exact h.receive.sendAck rc (Or.inl rfl) hidx (fun _ => rfl)
  | data n =>
    obtain ⟨hpos, hahead, hle, hacked⟩ := hmsg
    have hsize := h.negotiated hwait hacked
    by_cases hn : n % 65536 = (c.st.blockidx + 1).toNat
    · obtain rfl : n = c.calls.length + 1 := next_of_lag h.blockidx hahead (hlag n rfl) hn
      simp only [defaultsizePacket] at hlo
      obtain ⟨blk, hblk, hturn⟩ := onPacket_data_next c.request hp hpos hle (by omega)
        hhi hsize hn
      rw [hturn]
      refine h.receive.sendAck rc (Or.inr ⟨blk, rfl, hblk⟩) ?_ ?_
      · rw [h.blockidx, UInt16.ofNat_add]
        rfl
      · -- the client goes on waiting only if this was not the last block
        intro hstill
        have heof : blk.eof = false := by
          by_contra htrue
          simp only [Bool.not_eq_false] at htrue
          simp [Tftp.sendAck, transmit, Turn.status, htrue] at hstill
        simp [heof]
    · rw [onPacket_data_other hp hhi hn]
      exact h.receive.sendAck rc (Or.inl rfl) hidx (fun _ => hsize)

end ClientInv

/-! ## The whole system -/

section WorldInv

variable {F : List UInt8} {b : Nat}

structure WorldInv (F : List UInt8) (b : Nat) (w : World) : Prop where
  client : ClientInv F b w.client
  transfers : ∀ t ∈ w.transfers, t.n ≤ w.client.calls.length + 1 ∧ t.n ≤ blockCount F b ∧
    (0 < t.n → b = defaultsizePacket ∨ HasAck w.client.log)
  wire : ∀ f ∈ w.wire, MsgOk F b w.client f.msg

variable {c : Client} {w : World}

theorem MsgOk.mono {c' : Client} {msg : Msg} (h : MsgOk F b c msg) (hlog : c.log <+: c'.log)
    (hcalls : c.calls <+: c'.calls) : MsgOk F b c' msg := by
  have hlen := hcalls.length_le
  cases msg with
  | oack opts => exact h
  | error text => trivial
  | data n =>
    obtain ⟨hpos, hahead, hle, hacked⟩ := h
    exact ⟨hpos, by omega, hle, hacked.imp_right (fun ha => ha.mono (fun _ hm => hlog.subset hm))⟩

/-- Whatever keeps the client's invariant keeps the rest, since the client only advances. -/
theorem WorldInv.clientStep (h : WorldInv F b w) (e : Event) (hclient : ClientInv F b (w.client.step e)) :
    WorldInv F b { w with client := w.client.step e } := by
  obtain ⟨hlog, hcalls⟩ := w.client.step_prefix e
  have hlen := hcalls.length_le
  refine ⟨hclient, fun t ht => ?_, fun f hf => (h.wire f hf).mono hlog hcalls⟩
  obtain ⟨hahead, hle, hacked⟩ := h.transfers t ht
  exact ⟨by show t.n ≤ (w.client.step e).calls.length + 1; omega, hle, fun hpos =>
    (hacked hpos).imp_right (fun ha => ha.mono (fun _ hm => hlog.subset hm))⟩

theorem WorldInv.send (h : WorldInv F b w) (f : Flight)
    (hf : MsgOk F b w.client f.msg) : WorldInv F b { w with wire := w.wire ++ [f] } := by
  refine ⟨h.client, h.transfers, fun f' hf' => ?_⟩
  rcases List.mem_append.mp hf' with hf' | hf'
  · exact h.wire f' hf'
  · rw [List.mem_singleton.mp hf']
    exact hf

/-- An acknowledgement that a transfer takes for its current block was sent when the client had that
    block: an earlier one with the same 16 bits would be too old. -/
theorem ack_count {n k : Nat} (hk : UInt16.ofNat n = UInt16.ofNat k) (hlag : n < k + 2 ^ 15) : n ≤ k := by
  have hmod := congrArg UInt16.toNat hk
  rw [UInt16.toNat_ofNat', UInt16.toNat_ofNat'] at hmod
  omega

theorem WorldInv.step (hlo : defaultsizePacket ≤ b) (hhi : b ≤ maxPacket) {w' : World}
    (h : WorldInv F b w) (hstep : Step F b w w') : WorldInv F b w' := by
  cases hstep with
  | timeout txOk =>
    refine h.clientStep _ ?_
    rcases w.client.step_cases (.timeout txOk) with ⟨hs, -⟩ | ⟨hwait, _, heq, hs⟩ | ⟨-, p, rc, heq, -⟩
    · rw [hs]; exact h.client
    · cases heq
      rw [hs]
      exact h.client.timeout hwait txOk
    · cases heq
  | deliver f p rc hf _ _ hp hlag =>
    refine h.clientStep _ ?_
    rcases w.client.step_cases (.packet p rc) with ⟨hs, -⟩ | ⟨-, _, heq, -⟩ | ⟨hwait, _, _, heq, hs⟩
    · rw [hs]; exact h.client
    · cases heq
    · cases heq
      rw [hs]
      exact h.client.packet hwait hlo hhi hp (h.wire f hf) hlag rc
  | request k m name blksize tid n hm hrrq hn =>
    refine ⟨h.client, fun t ht => ?_, h.wire⟩
    rcases List.mem_append.mp ht with ht | ht
    · exact h.transfers t ht
    · rw [List.mem_singleton.mp ht]
      rcases hn with rfl | ⟨hb, rfl⟩
      · exact ⟨Nat.zero_le _, Nat.zero_le _, fun hpos => by cases hpos⟩
      · exact ⟨Nat.le_add_left _ _, Nat.le_add_left _ _, fun _ => Or.inl hb⟩
  | sendOack t opts _ _ hopts => exact h.send _ hopts
  | sendData t ht hn =>
    obtain ⟨hahead, hle, hacked⟩ := h.transfers t ht
    exact h.send _ ⟨hn, hahead, hle, hacked hn⟩
  | sendError src dst text => exact h.send _ trivial
  | acked before after t k m ht hm _ _ hack hlag hmore =>
    refine ⟨h.client, fun t' ht' => ?_, h.wire⟩
    rw [List.mem_append, List.mem_cons] at ht'
    rcases ht' with ht' | rfl | ht'
    · exact h.transfers t' (by rw [ht]; exact List.mem_append_left _ ht')
    · obtain ⟨ha, hk⟩ := h.client.acks k m _ hm hack
      have hn := ack_count ha hlag
      exact ⟨by show t.n + 1 ≤ w.client.calls.length + 1; omega, hmore, fun _ =>
        Or.inr ⟨k, m, _, hm, hack⟩⟩
    · exact h.transfers t' (by rw [ht]; simp [ht'])

/-- What a new request leaves in the client, sent or not. -/
theorem start_eq (s : Statics) (name : List UInt8) (txOk : Bool) :
    (start s name txOk).calls = [] ∧
      (start s name txOk).request = some (tftpRequest name) ∧
      (start s name txOk).st.xmit = .rrq name (UInt16.ofNat maxPacket) ∧
      (start s name txOk).st.blockidx = 0 ∧
      (start s name txOk).st.blksize = defaultsizePacket ∧
      ∀ k m, .sent k m ∈ (start s name txOk).log → m.xmit = .rrq name (UInt16.ofNat maxPacket) := by
  refine ⟨?_, ?_, ?_, ?_, ?_, fun k m hm => ?_⟩
  all_goals cases txOk
  any_goals rfl
  · cases hm
  · have hm' : Act.sent k m ∈ [Act.sent 0 ⟨s.lport + 1, tftpPort,
        .rrq name (UInt16.ofNat maxPacket)⟩] := hm
    cases List.mem_singleton.mp hm'
    rfl

theorem worldInv_init (h : (system F b).init w) : WorldInv F b w := by
  obtain ⟨s, name, txOk, rfl⟩ := h
  obtain ⟨hcalls, hrequest, hxmit, hidx, hsize, hlog⟩ := start_eq s name txOk
  have hnone : ¬ HasAck (start s name txOk).log := by
    rintro ⟨k, m, a, hm, hack⟩
    rw [hlog k m hm] at hack
    cases hack
  refine ⟨?_, fun t ht => absurd ht List.not_mem_nil, fun f hf => absurd hf List.not_mem_nil⟩
  refine ⟨fun i blk hget => ?_, ?_, fun rq hrq => ?_, fun hrq => ?_, fun a ha => ?_,
    fun k m a hm hack => absurd ⟨k, m, a, hm, hack⟩ hnone, fun _ => Or.inr ⟨hsize, hnone⟩⟩
  · exact absurd hget (by simp [hcalls])
  · simp [hcalls, hidx]
  · obtain rfl : tftpRequest name = rq := Option.some.inj (hrequest.symm.trans hrq)
    exact ⟨hcalls, rfl⟩
  · exact absurd hrq (by simp [hrequest])
  · exact absurd ha (by simp [hxmit])

theorem worldInv_reachable (hlo : defaultsizePacket ≤ b) (hhi : b ≤ maxPacket)
    (h : (system F b).Reachable w) : WorldInv F b w :=
  h.invariant (fun _ => worldInv_init) (fun _ _ _ hinv hstep => hinv.step hlo hhi hstep)

theorem ClientInv.flatten (h : ClientInv F b c) :
    (c.calls.map BlockInfo.bytes).flatten = F.take (c.calls.length * b) := by
  have hmap : c.calls.map BlockInfo.bytes
      = (List.range c.calls.length).map (fun i => chunk F b (i + 1)) := by
    apply List.ext_getElem
    · simp
    · intro i hi _
      rw [List.length_map] at hi
      simpa using (h.blocks i _ (List.getElem?_eq_getElem hi)).bytes
  rw [hmap, flatten_chunks]

theorem ClientInv.length_le (h : ClientInv F b c) : c.calls.length ≤ blockCount F b := by
  rcases Nat.eq_zero_or_pos c.calls.length with hzero | hpos
  · omega
  · have hlast := (h.blocks (c.calls.length - 1) _ (List.getElem?_eq_getElem (by omega))).le
    omega

/-- **The file arrives in order.** For every file, every block size from 512 to 1432 bytes and every
    run of client, network and server: what has been passed to `fnc` is a prefix of the file, cut at a
    multiple of the block size or at its end; the calls are those for block 1, 2, 3 and so on, none
    twice and none left out; and `eof` is passed exactly with the last block, the one that is shorter
    than the others. -/
theorem download_integrity (F : List UInt8) (b : Nat) (hlo : defaultsizePacket ≤ b)
    (hhi : b ≤ maxPacket) (w : World) (h : (system F b).Reachable w) :
    (w.client.calls.map BlockInfo.bytes).flatten = F.take (w.client.calls.length * b) ∧
      w.client.calls.length ≤ blockCount F b ∧
      ∀ i c, w.client.calls[i]? = some c →
        c.bytes = chunk F b (i + 1) ∧ (c.eof = true ↔ i + 1 = blockCount F b) := by
  have hinv := (worldInv_reachable hlo hhi h).client
  exact ⟨hinv.flatten, hinv.length_le,
    fun i c hc => ⟨(hinv.blocks i c hc).bytes, (hinv.blocks i c hc).eof⟩⟩

end WorldInv

end Tftp
