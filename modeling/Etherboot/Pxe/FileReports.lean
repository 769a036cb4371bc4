import Etherboot.Pxe.FileCalls

set_option autoImplicit false

/-! # What the calls for whole files report

A file that is reported as read is complete and in the buffer, and a file that is complete and fits is
reported, exactly if what is taken for the blocks of the file are its blocks, if the transfer does not end with
a 0 of `tftp_block`, and if some limits are not hit: a file that just fills the buffer is refused, sizes are
counted in 32 bits, and a buffer whose address is taken for `NULL` is no buffer. -/

namespace PxeFile

open Memory Tftp
open Tftp (Client Packet BlockInfo Request Statics Turn onPacket onTimeout)
open PxeTftp (Next blockOf)

namespace Machine

variable {m : Machine} {files : List UInt8 → List UInt8}

/-- While the transfer goes on, the last block has not come, and what has come are whole blocks of the file; it
    is counted, or is in the buffer with room for more. -/
structure Running (m : Machine) : Prop where
  blksize : 0 < m.client.st.blksize
  going : ¬ m.Complete
  request : m.client.request ≠ none → m.blocks = []
  file : m.file = m.wanted.take (m.blocks.length * m.client.st.blksize.toNat)
  inside : m.blocks.length * m.client.st.blksize.toNat ≤ m.wanted.length
  offset : m.readfile.offset.toNat = m.file.length % 2 ^ 32
  room : m.readfile.buffer ≠ 0 → m.file = [] ∨ m.file.length < m.readfile.bufferlen.toNat
  copied : m.readfile.buffer ≠ 0 → m.mem.Has m.readfile.buffer m.file
  kind : m.readfile.buffer ≠ 0 → m.kind = .readFile

structure Inv (m : Machine) : Prop where
  confined : m.Confined
  sound : m.Sound
  running : m.client.status = .waiting → m.Running

theorem Running.small (h : m.Running) (hbuf : m.readfile.buffer ≠ 0) : m.file.length < 2 ^ 32 := by
  rcases h.room hbuf with hnil | hlt
  · rw [hnil]
    exact Nat.two_pow_pos 32
  · exact hlt.trans m.readfile.bufferlen.toNat_lt

theorem sound_nil (h : m.blocks = []) (hc : ¬ m.Complete) : m.Sound := by
  have hfile : m.file = [] := by rw [file, h]; rfl
  exact ⟨hfile ▸ List.nil_prefix, fun hcomplete => absurd hcomplete hc, fun p hp => by simp [h] at hp⟩

theorem init_inv (st : Statics) (kernelBuf : List UInt8) (mem : Store) :
    (init st kernelBuf mem).Inv where
  confined := fun _ hw => by cases hw
  sound := sound_nil rfl (fun h => by cases h.choose_spec.1)
  running := fun h => Status.noConfusion h

/-! ## The end of a step -/

theorem report_eq (m : Machine) : ∃ r f, m.report = { m with result := r, fileSize := f } := by
  unfold report
  split
  · exact ⟨_, _, rfl⟩
  · exact ⟨none, m.fileSize, rfl⟩

theorem Inv.congr (hi : m.Inv) (r : Option Result) (f : UInt32) :
    { m with result := r, fileSize := f }.Inv :=
  ⟨hi.confined, ⟨hi.sound.begins, hi.sound.whole, hi.sound.long⟩, fun h =>
    have hrun := hi.running h
    ⟨hrun.blksize, hrun.going, hrun.request, hrun.file, hrun.inside, hrun.offset, hrun.room, hrun.copied,
      hrun.kind⟩⟩

theorem Inv.quiet (hi : m.Inv) : m.quiet.Inv := hi.congr none m.fileSize

theorem Inv.report (hi : m.Inv) : m.report.Inv := by
  obtain ⟨r, f, heq⟩ := m.report_eq
  rw [heq]
  exact hi.congr r f

theorem report_returned {rc : Int} (h : m.client.status = .returned rc) : m.report = m.finish rc := by
  unfold report
  rw [h]

theorem report_of_ne (h : ∀ rc, m.client.status ≠ .returned rc) : m.report = m.quiet := by
  unfold report
  split
  · next rc hrc => exact absurd hrc (h rc)
  · rfl

/-- What is reported in a state is right. -/
def Reports (m : Machine) : Prop := ∀ r, m.result = some r → m.Right r

theorem good_iff {e : Event} (hi : (m.step files e).Inv) : m.Good files e ↔ (m.step files e).Reports :=
  ⟨fun h => h.reports, fun h => ⟨h, hi.confined, hi.sound⟩⟩

theorem quiet_reports (m : Machine) : m.quiet.Reports :=
  fun r h => by cases h

theorem quiet_spec (hi : m.Inv) {e : Event} (hstep : m.step files e = m.quiet) :
    m.Good files e ∧ (m.step files e).Inv := by
  rw [good_iff (hstep ▸ hi.quiet), hstep]
  exact ⟨m.quiet_reports, hi.quiet⟩

theorem finish_reports {rc : Int} :
    (m.finish rc).Reports ↔ (m.finish rc).Right (if rc = 0 then .success else .failure) :=
  ⟨fun h => h _ rfl, fun h _ hr => Option.some.inj hr ▸ h⟩

theorem right_failure (h : ¬ m.Complete) {r : Result} (hr : r ≠ .success) : m.Right r := by
  unfold Right
  split
  · exact ⟨⟨fun hs => absurd hs hr, fun hc => absurd hc.1 h⟩, fun hs => absurd hs hr⟩
  · exact fun hs => absurd hs hr

theorem not_right_success (h : ¬ m.Complete) : ¬ m.Right .success := by
  unfold Right
  split
  · exact fun hr => h (hr.1.mp rfl).1
  · exact fun hr => h (hr rfl).1

/-- Without the last block only a 0 is reported wrongly. -/
theorem report_reports (h : ¬ m.Complete) : m.report.Reports ↔ m.client.status ≠ .returned 0 := by
  by_cases hret : ∃ rc, m.client.status = .returned rc
  · obtain ⟨rc, hrc⟩ := hret
    rw [report_returned hrc, finish_reports, hrc]
    by_cases hzero : rc = 0
    · rw [if_pos hzero, hzero]
      exact iff_of_false (@not_right_success (m.finish 0) h) (fun hne => hne rfl)
    · rw [if_neg hzero]
      exact iff_of_true (@right_failure (m.finish rc) h .failure (by decide)) (fun heq => hzero (Status.returned.inj heq))
  · have hne : ∀ rc, m.client.status ≠ .returned rc := fun rc hrc => hret ⟨rc, hrc⟩
    rw [report_of_ne hne]
    exact iff_of_true m.quiet_reports (hne 0)

/-! ## Turns without a block -/

/-- The turn ends without a block. If the wait goes on, the block size stays as it is once there are blocks. -/
def Blockless (m : Machine) (t : Turn) : Prop :=
  t.out = .hung ∨ (∃ rc, t.out = .ret rc) ∨
    t.out = .wait ∧ 0 < t.st.blksize ∧ (m.blocks = [] ∨ t.st.blksize = m.client.st.blksize)

theorem Blockless.delivered {t : Turn} (h : m.Blockless t) : t.out.delivered = [] := by
  rcases h with h | ⟨rc, h⟩ | ⟨h, -⟩
  · rw [h]; rfl
  · rw [h]; rfl
  · rw [h]; rfl

/-- A turn that ends without a block keeps the invariant. Its report is right unless it is a 0. -/
theorem plain_spec (hi : m.Inv) (hwait : m.client.status = .waiting) {c : Client} {t : Turn}
    (hst : c.st = t.st) (hcalls : c.calls = m.client.calls) (hrequest : c.request = m.client.request)
    (hstatus : c.status = t.status 0) (hout : m.Blockless t) :
    { m with client := c }.report.Inv ∧ ({ m with client := c }.report.Reports ↔ t.out ≠ .ret 0) := by
  have hrun := hi.running hwait
  have hcomplete : { m with client := c }.Complete ↔ m.Complete := by
    unfold Complete
    rw [hcalls]
  have hgoing : ¬ { m with client := c }.Complete := fun h => hrun.going (hcomplete.mp h)
  have hret : c.status = .returned 0 ↔ t.out = .ret 0 := by
    rw [hstatus, Turn.status]
    rcases hout with h | ⟨rc, h⟩ | ⟨h, -⟩
    · simp [h]
    · simp [h]
    · simp [h]
  have hinv : { m with client := c }.Inv := by
    refine ⟨hi.confined, ⟨hi.sound.begins, fun h => hi.sound.whole (hcomplete.mp h), hi.sound.long⟩,
      fun hagain => ?_⟩
    obtain ⟨hpos, hsize⟩ : 0 < t.st.blksize ∧ (m.blocks = [] ∨ t.st.blksize = m.client.st.blksize) := by
      rw [hstatus, Turn.status] at hagain
      rcases hout with h | ⟨rc, h⟩ | ⟨-, h⟩
      · rw [h] at hagain
        exact Status.noConfusion hagain
      · rw [h] at hagain
        exact Status.noConfusion hagain
      · exact h
    have hwhole : m.blocks.length * t.st.blksize.toNat = m.blocks.length * m.client.st.blksize.toNat := by
      rcases hsize with hnil | heq
      · rw [hnil, List.length_nil, Nat.zero_mul, Nat.zero_mul]
      · rw [heq]
    refine ⟨hst ▸ hpos, hgoing, fun h => hrun.request (hrequest ▸ h), ?_, ?_, hrun.offset, hrun.room,
      hrun.copied, hrun.kind⟩
    · rw [hst, hwhole]
      exact hrun.file
    · rw [hst, hwhole]
      exact hrun.inside
  exact ⟨hinv.report, (report_reports hgoing).trans (not_congr hret)⟩

theorem onTimeout_out (st : Statics) (txOk : Bool) :
    (onTimeout st txOk).out = (if st.retry.toNat ≤ maxTftpRetries ∧ txOk = true then .wait else .ret 0)
      ∧ (onTimeout st txOk).st.blksize = st.blksize := by
  unfold onTimeout
  by_cases hretry : st.retry.toNat > maxTftpRetries
  · rw [if_pos hretry]
    exact ⟨(if_neg (fun h => absurd h.1 (Nat.not_le.mpr hretry))).symm, rfl⟩
  · cases txOk with
    | true =>
      rw [if_neg hretry]
      exact ⟨(if_pos ⟨Nat.not_lt.mp hretry, rfl⟩).symm, rfl⟩
    | false =>
      rw [if_neg hretry]
      exact ⟨(if_neg (fun h => Bool.false_ne_true h.2)).symm, rfl⟩

theorem turn_blockless (c : Client) {t : Turn} (h : t.out.delivered = []) :
    (c.turn t 0).calls = c.calls ∧ (c.turn t 0).request = c.request := by
  constructor
  · show c.calls ++ _ = c.calls
    rw [h, List.append_nil]
  · show (if _ then c.request else none) = c.request
    rw [h]
    rfl

theorem timeout_spec (hi : m.Inv) (txOk : Bool) :
    (m.Good files (.timeout txOk) ↔ m.Condition (.timeout txOk)) ∧ (m.step files (.timeout txOk)).Inv := by
  by_cases hwait : m.client.status = .waiting
  · have hstep : m.step files (.timeout txOk) = { m with client := m.client.step (.timeout txOk) }.report :=
      if_pos hwait
    obtain ⟨hout, hsize⟩ := onTimeout_out m.client.st txOk
    have hcond : m.Condition (.timeout txOk) ↔ (onTimeout m.client.st txOk).out ≠ .ret 0 := by
      rw [hout]
      split
      · next h => exact iff_of_true (fun _ => h) (fun h => Outcome.noConfusion h)
      · next h => exact iff_of_false (fun hc => h (hc hwait)) (fun hne => hne rfl)
    have hplain : m.Blockless (onTimeout m.client.st txOk) := by
      rw [Blockless, hsize]
      split at hout
      · exact .inr (.inr ⟨hout, (hi.running hwait).blksize, .inr rfl⟩)
      · exact .inr (.inl ⟨0, hout⟩)
    rw [Client.step_timeout hwait] at hstep
    obtain ⟨hcalls, hrequest⟩ := turn_blockless m.client hplain.delivered
    obtain ⟨hinv, hreports⟩ := plain_spec hi hwait rfl hcalls hrequest rfl hplain
    rw [← hstep] at hinv hreports
    exact ⟨(good_iff hinv).trans (hreports.trans hcond.symm), hinv⟩
  · have hstep : m.step files (.timeout txOk) = m.quiet := if_neg hwait
    obtain ⟨hgood, hinv⟩ := quiet_spec hi hstep
    exact ⟨iff_of_true hgood (fun h => absurd h hwait), hinv⟩

/-! ## Packets without a block -/

section Packets

variable {p : Packet}

theorem receive_plain (htakes : m.Takes p)
    (hnone : (onPacket m.client.st m.client.request p).out.delivered = []) :
    m.receive p =
      { m with client := m.client.receive.turn (onPacket m.client.st m.client.request p) 0 }.report := by
  rw [← Client.step_packet htakes.1 htakes.2]
  unfold receive
  split
  · next b hb =>
      rw [hb] at hnone
      exact absurd hnone (List.cons_ne_nil b [])
  · rfl

theorem packet_plain (hi : m.Inv) (htakes : m.Takes p)
    (hout : m.Blockless (onPacket m.client.st m.client.request p)) :
    (m.Good files (.packet p) ↔ (onPacket m.client.st m.client.request p).out ≠ .ret 0) ∧
      (m.step files (.packet p)).Inv := by
  have hstep : m.step files (.packet p) = m.receive p := if_pos htakes
  obtain ⟨hcalls, hrequest⟩ := turn_blockless m.client.receive hout.delivered
  obtain ⟨hinv, hreports⟩ := plain_spec hi htakes.1 rfl hcalls hrequest rfl hout
  rw [← receive_plain htakes hout.delivered, ← hstep] at hinv hreports
  exact ⟨(good_iff hinv).trans hreports, hinv⟩

/-- An acknowledgement of options ends the transfer with a 0 exactly if its block size is refused. -/
theorem onOack_out (hrun : m.Running) (hoack : p.opcode = opOack) :
    m.Blockless (onPacket m.client.st m.client.request p) ∧
      ((onPacket m.client.st m.client.request p).out = .ret 0 ↔ m.Refuses p) := by
  rw [onPacket_opOack hoack]
  unfold Refuses onOack
  cases hrq : m.client.request with
  | none =>
    refine ⟨.inr (.inr ⟨rfl, hrun.blksize, .inr rfl⟩), iff_of_false Outcome.noConfusion ?_⟩
    rintro ⟨-, -, r, hr, -⟩
    cases hr
  | some r =>
    have hnil := hrun.request (hrq ▸ Option.some_ne_none r)
    dsimp only
    split
    · next hidx =>
      exact ⟨.inr (.inr ⟨rfl, hrun.blksize, .inr rfl⟩), iff_of_false Outcome.noConfusion (fun h => hidx h.2.1)⟩
    · next hidx =>
      split
      · next hscan =>
        refine ⟨.inl rfl, iff_of_false Outcome.noConfusion ?_⟩
        rintro ⟨-, -, -, -, b, hb, -⟩
        cases hscan.symm.trans hb
      · next b hscan =>
        split
        · next hbad =>
          exact ⟨.inr (.inl ⟨0, rfl⟩), iff_of_true rfl ⟨hoack, not_not.mp hidx, r, rfl, b, hscan, hbad⟩⟩
        · next hgood =>
          refine ⟨.inr (.inr ⟨rfl, ?_, .inl hnil⟩), iff_of_false Outcome.noConfusion ?_⟩
          · show 0 < b
            simp only [defaultsizePacket] at hgood
            omega
          · rintro ⟨-, -, r', hr, b', hb, hbad⟩
            cases hr
            cases hscan.symm.trans hb
            exact hgood hbad

theorem not_next_of_oack (h : p.opcode = opOack) (st : Statics) : ¬ Next st p := by
  intro hnext
  rw [hnext.1] at h
  cases h

/-- A packet with no block. It ends the transfer with a 0 if it reports an error with the code 0, or if it is
    such an acknowledgement. -/
theorem onPacket_out (hrun : m.Running) (hnext : ¬ Next m.client.st p) :
    m.Blockless (onPacket m.client.st m.client.request p) ∧
      ((onPacket m.client.st m.client.request p).out = .ret 0 ↔
        p.opcode = opError ∧ be16 p.body 2 = 0 ∨ m.Refuses p) := by
  by_cases hoack : p.opcode = opOack
  · obtain ⟨hplain, hret⟩ := onOack_out hrun hoack
    refine ⟨hplain, hret.trans (or_iff_right ?_).symm⟩
    rintro ⟨herror, -⟩
    cases hoack.symm.trans herror
  have hrefuses : ¬ m.Refuses p := fun h => hoack h.1
  by_cases herror : p.opcode = opError
  · rw [onPacket_opError herror]
    refine ⟨.inr (.inl ⟨_, rfl⟩), ⟨fun h => .inl ⟨herror, ?_⟩, fun h => ?_⟩⟩
    · have hcode := Outcome.ret.inj h
      omega
    · rw [(h.resolve_right hrefuses).2]
      rfl
  · rw [PxeTftp.onPacket_other herror hoack hnext]
    refine ⟨.inr (.inr ⟨rfl, hrun.blksize, .inr rfl⟩), iff_of_false Outcome.noConfusion ?_⟩
    rintro (h | h)
    · exact herror h.1
    · exact hrefuses h

theorem packet_other (hi : m.Inv) (htakes : m.Takes p) (hnext : ¬ Next m.client.st p) :
    (m.Good files (.packet p) ↔ m.Condition (.packet p)) ∧ (m.step files (.packet p)).Inv := by
  obtain ⟨hplain, hret⟩ := onPacket_out (hi.running htakes.1) hnext
  obtain ⟨hgood, hinv⟩ := packet_plain hi htakes hplain
  refine ⟨hgood.trans ((not_congr hret).trans (not_or.trans ⟨fun h _ => ?_, fun h => ?_⟩)), hinv⟩
  · exact ⟨fun herror hcode => h.1 ⟨herror, hcode⟩, h.2, fun hn => absurd hn hnext⟩
  · exact ⟨fun herror => (h htakes).1 herror.1 herror.2, (h htakes).2.1⟩

/-! ## Packets with a block -/

theorem blockOf_data (st : Statics) (hlen : 12 ≤ p.udpLen.toNat) :
    (blockOf st p).len = (data p).length ∧ (blockOf st p).data.slice 0 (data p).length = data p ∧
      ((blockOf st p).eof = true ↔ ((data p).length : Int) < st.blksize) ∧ (data p).length < 65536 := by
  have hlt := p.udpLen.toNat_lt
  have hsize : (data p).length = p.udpLen.toNat - 12 := Store.length_slice _ _ _
  have heq : (p.recvlen + (2 ^ 32 - 2)) % 2 ^ 32 = (data p).length := by
    rw [Packet.recvlen, hsize]
    omega
  refine ⟨heq, ?_, ?_, by omega⟩
  · rw [hsize]
    exact Store.slice_congr (fun k _ => by rw [Nat.zero_add]; rfl)
  · show decide _ = true ↔ _
    rw [heq, Nat.mod_eq_of_lt (by omega : (data p).length < 65536)]
    exact decide_eq_true_iff

theorem status_block {t : Turn} {b : BlockInfo} (h : t.out = .block b) (rc : Int) :
    t.status rc = if rc ≤ 0 then .returned rc else if b.eof then .returned rc
      else if t.st.blksize = 0 then .returned 0 else .waiting := by
  obtain ⟨st, sent, out⟩ := t
  obtain rfl : out = .block b := h
  rfl

/-- The state in which `tftp` goes on or returns, a block having been passed on. -/
def passed (m : Machine) (p : Packet) (d : Delivery) : Machine :=
  { m with
    client := m.client.step (.packet p d.rc), readfile := d.readfile, mem := d.mem,
    blocks := m.blocks ++ [p], written := m.written ++ d.written }

/-- With the next block there is one block more of the file, or all of it. -/
theorem file_next (hrun : m.Running) (h : m.IsNext p) :
    m.file ++ data p = m.wanted.take ((m.blocks.length + 1) * m.client.st.blksize.toNat) ∧
      (((data p).length : Int) < m.client.st.blksize → m.file ++ data p = m.wanted) ∧
      (¬ ((data p).length : Int) < m.client.st.blksize →
        (m.blocks.length + 1) * m.client.st.blksize.toNat ≤ m.wanted.length) := by
  have hpos := hrun.blksize
  have hsucc := Nat.add_one_mul m.blocks.length m.client.st.blksize.toNat
  have hlength : (data p).length =
      min m.client.st.blksize.toNat (m.wanted.length - m.blocks.length * m.client.st.blksize.toNat) := by
    rw [h.2, length_chunk, Nat.add_sub_cancel]
  have hfile : m.file ++ data p = m.wanted.take ((m.blocks.length + 1) * m.client.st.blksize.toNat) := by
    rw [hrun.file, h.2, chunk, Nat.add_sub_cancel, hsucc, List.take_add]
  refine ⟨hfile, fun hlast => hfile.trans (List.take_of_length_le ?_), fun hlast => ?_⟩
  · omega
  · omega

/-- What continues the beginning of the file, and ends it if it is short, is the next block. -/
theorem isNext_of_begins (hrun : m.Running) (hnext : Next m.client.st p) (hlen : 12 ≤ p.udpLen.toNat)
    (hbegins : m.file ++ data p <+: m.wanted)
    (hwhole : ((data p).length : Int) < m.client.st.blksize → m.file ++ data p = m.wanted) : m.IsNext p := by
  have hpos := hrun.blksize
  have hsize : (data p).length = p.udpLen.toNat - 12 := Store.length_slice _ _ _
  have hmax : (data p).length ≤ m.client.st.blksize.toNat := by
    have hle := hnext.2.2
    rw [Packet.recvlen] at hle
    have := p.udpLen.toNat_lt
    omega
  have hcount : m.file.length = m.blocks.length * m.client.st.blksize.toNat := by
    rw [hrun.file, List.length_take, Nat.min_eq_left hrun.inside]
  obtain ⟨rest, hrest⟩ := hbegins
  have hdrop : m.wanted.drop (m.blocks.length * m.client.st.blksize.toNat) = data p ++ rest := by
    rw [← hrest, List.append_assoc, ← hcount, List.drop_left]
  refine ⟨hlen, ?_⟩
  rw [chunk, Nat.add_sub_cancel, hdrop]
  by_cases hlast : ((data p).length : Int) < m.client.st.blksize
  · have hnil : rest = [] := List.self_eq_append_right.mp ((hwhole hlast).trans hrest.symm)
    rw [hnil, List.append_nil, List.take_of_length_le hmax]
  · exact (List.take_left' (by omega)).symm

theorem step_next (htakes : m.Takes p) (hnext : Next m.client.st p) :
    m.step files (.packet p) =
      (m.passed p (pxeTftpReadBlock m.readfile m.mem (blockOf m.client.st p))).report := by
  have hstep : m.step files (.packet p) = m.receive p := if_pos htakes
  rw [hstep, receive, (PxeTftp.onPacket_next hnext _).1]
  rfl

section Passed

variable {d : Delivery} (hi : m.Inv) (htakes : m.Takes p) (hnext : Next m.client.st p)

theorem file_passed (d : Delivery) : (m.passed p d).file = m.file ++ data p := by
  show (m.blocks ++ [p]).flatMap data = m.blocks.flatMap data ++ data p
  rw [List.flatMap_append, List.flatMap_singleton]

include htakes

theorem client_passed : (m.passed p d).client =
    m.client.receive.turn (onPacket m.client.st m.client.request p) d.rc :=
  Client.step_packet htakes.1 htakes.2 d.rc

include hnext

theorem complete_passed :
    (m.passed p d).Complete ↔ (blockOf m.client.st p).eof = true := by
  have hcalls : (m.passed p d).client.calls = m.client.calls ++ [blockOf m.client.st p] := by
    rw [client_passed htakes]
    show m.client.calls ++ _ = _
    rw [(PxeTftp.onPacket_next hnext _).1]
    rfl
  unfold Complete
  rw [hcalls, List.getLast?_concat]
  constructor
  · rintro ⟨b, hb, heof⟩
    exact Option.some.inj hb ▸ heof
  · exact fun h => ⟨_, rfl, h⟩

theorem status_passed (hsize : 0 < m.client.st.blksize) :
    (m.passed p d).client.status =
      if d.rc ≤ 0 ∨ (blockOf m.client.st p).eof = true then .returned d.rc else .waiting := by
  obtain ⟨hout, -, hblksize⟩ := PxeTftp.onPacket_next hnext m.client.request
  rw [client_passed htakes]
  show (onPacket m.client.st m.client.request p).status d.rc = _
  rw [status_block hout, hblksize]
  by_cases hrc : d.rc ≤ 0
  · rw [if_pos hrc, if_pos (.inl hrc)]
  · cases heof : (blockOf m.client.st p).eof with
    | true => simp [hrc]
    | false => simp [hrc, hsize.ne']

theorem blksize_passed (heof : (blockOf m.client.st p).eof = false) :
    (m.passed p d).client.st.blksize = m.client.st.blksize := by
  rw [client_passed htakes]
  show (onPacket m.client.st m.client.request p).st.blksize = _
  rw [(PxeTftp.onPacket_next hnext _).2.2, heof]
  rfl

theorem request_passed : (m.passed p d).client.request = none := by
  rw [client_passed htakes]
  show (if (onPacket m.client.st m.client.request p).out.delivered.isEmpty then _ else none) = none
  rw [(PxeTftp.onPacket_next hnext _).1]
  rfl

include hi

theorem sound_passed (h : m.IsNext p) : (m.passed p d).Sound := by
  obtain ⟨hfile, hwhole, -⟩ := file_next (hi.running htakes.1) h
  refine ⟨?_, fun hcomplete => ?_, fun q hq => ?_⟩
  · rw [file_passed, hfile]
    exact List.take_prefix ..
  · rw [file_passed]
    exact hwhole ((blockOf_data m.client.st h.1).2.2.1.mp ((complete_passed htakes hnext).mp hcomplete))
  · rcases List.mem_append.mp hq with hq | hq
    · exact hi.sound.long q hq
    · rw [List.mem_singleton.mp hq]
      exact h.1

end Passed

theorem toNat_offset (rf : ReadFile) (b : BlockInfo) :
    (rf.offset + UInt32.ofNat b.len).toNat = (rf.offset.toNat + b.len) % 2 ^ 32 := by
  rw [UInt32.toNat_add, UInt32.toNat_ofNat', Nat.add_mod_mod]

/-- What a block does that is copied: it is refused if it does not fit, or copied. -/
theorem readBlock_copies {rf : ReadFile} {mem : Store} {b : BlockInfo} (hbuf : rf.buffer ≠ 0) :
    pxeTftpReadBlock rf mem b =
      if rf.bufferlen.toNat ≤ (rf.offset.toNat + b.len) % 2 ^ 32 then ⟨-1, rf, mem, []⟩
      else ⟨if b.eof then 0 else 1, rf.count b,
        mem.splice (rf.buffer + rf.offset.toNat) (b.data.slice 0 b.len),
        [(rf.buffer + rf.offset.toNat, b.len)]⟩ := by
  rw [← toNat_offset]
  exact if_pos hbuf

theorem readBlock_counts {rf : ReadFile} {mem : Store} {b : BlockInfo} (hbuf : rf.buffer = 0) :
    pxeTftpReadBlock rf mem b = ⟨if b.eof then 0 else 1, rf.count b, mem, []⟩ :=
  if_neg (not_not.mpr hbuf)

theorem offset_count (hrun : m.Running) {b : BlockInfo} (hlen : b.len = (data p).length) :
    (m.readfile.count b).offset.toNat = (m.file ++ data p).length % 2 ^ 32 := by
  show (m.readfile.offset + UInt32.ofNat b.len).toNat = _
  rw [toNat_offset, hrun.offset, hlen, List.length_append, Nat.mod_add_mod]

/-- What `pxe_tftp_read_block` does with a block that it does not refuse. -/
structure Adds (m : Machine) (p : Packet) (d : Delivery) : Prop where
  rc : d.rc = if (blockOf m.client.st p).eof then 0 else 1
  readfile : d.readfile = m.readfile.count (blockOf m.client.st p)

section Adds

variable {d : Delivery}

@[simp] theorem count_buffer (rf : ReadFile) (b : BlockInfo) : (rf.count b).buffer = rf.buffer := rfl

@[simp] theorem count_bufferlen (rf : ReadFile) (b : BlockInfo) : (rf.count b).bufferlen = rf.bufferlen := rfl

theorem Adds.buffer (h : m.Adds p d) : d.readfile.buffer = m.readfile.buffer := by
  rw [h.readfile, count_buffer]

theorem Adds.bufferlen (h : m.Adds p d) : d.readfile.bufferlen = m.readfile.bufferlen := by
  rw [h.readfile, count_bufferlen]

/-- A file is rightly reported as read if it fits and is there. -/
theorem Adds.right_readFile (h : m.Adds p d) (hkind : m.kind = .readFile)
    (hwhole : m.file ++ data p = m.wanted) (hcomplete : ((m.passed p d).finish 0).Complete) :
    ((m.passed p d).finish 0).Right .success ↔
      (m.file ++ data p).length ≤ m.readfile.bufferlen.toNat ∧
        d.mem.Has m.readfile.buffer (m.file ++ data p) := by
  unfold Right
  rw [show ((m.passed p d).finish 0).kind = .readFile from hkind]
  show (_ ↔ _ ∧ m.wanted.length ≤ d.readfile.bufferlen.toNat) ∧ (_ → d.mem.Has d.readfile.buffer m.wanted) ↔ _
  rw [h.buffer, h.bufferlen, hwhole]
  constructor
  · rintro ⟨hiff, hhas⟩
    exact ⟨(hiff.mp rfl).2, hhas rfl⟩
  · rintro ⟨hle, hhas⟩
    exact ⟨iff_of_true rfl ⟨hcomplete, hle⟩, fun _ => hhas⟩

/-- A size is rightly reported if 32 bits are enough for it. -/
theorem Adds.right_getFsize (h : m.Adds p d) (hrun : m.Running) (hlen : 12 ≤ p.udpLen.toNat)
    (hkind : m.kind = .getFsize) (hwhole : m.file ++ data p = m.wanted) (hcomplete : ((m.passed p d).finish 0).Complete) :
    ((m.passed p d).finish 0).Right .success ↔ (m.file ++ data p).length < 2 ^ 32 := by
  have hpassed : (m.passed p d).kind = .getFsize := hkind
  have hsize : ((m.passed p d).finish 0).fileSize.toNat = (m.file ++ data p).length % 2 ^ 32 := by
    rw [← offset_count hrun (blockOf_data m.client.st hlen).1, ← h.readfile, finish, hpassed]
    rfl
  unfold Right
  rw [show ((m.passed p d).finish 0).kind = .getFsize from hkind, hsize,
    show ((m.passed p d).finish 0).wanted = m.wanted from rfl, ← hwhole]
  constructor
  · intro hr
    rw [← (hr rfl).2]
    exact Nat.mod_lt _ (Nat.two_pow_pos 32)
  · exact fun hlt _ => ⟨hcomplete, Nat.mod_eq_of_lt hlt⟩

theorem confined_passed_nil (hi : m.Inv) (h : m.Adds p d) (hw : d.written = []) :
    (m.passed p d).Confined := by
  show ∀ w ∈ m.written ++ d.written, w.2 = 0 ∨ d.readfile.buffer ≤ w.1 ∧ _ ≤ d.readfile.buffer + d.readfile.bufferlen.toNat
  rw [hw, List.append_nil, h.buffer, h.bufferlen]
  exact hi.confined

theorem confined_passed_cons (hi : m.Inv) (h : m.Adds p d) {k n : Nat}
    (hw : d.written = [(m.readfile.buffer + k, n)]) :
    (m.passed p d).Confined ↔ n = 0 ∨ k + n ≤ m.readfile.bufferlen.toNat := by
  show (∀ w ∈ m.written ++ d.written, w.2 = 0 ∨
    d.readfile.buffer ≤ w.1 ∧ _ ≤ d.readfile.buffer + d.readfile.bufferlen.toNat) ↔ _
  rw [hw, h.buffer, h.bufferlen, List.forall_mem_append, List.forall_mem_singleton]
  constructor
  · rintro ⟨-, hzero | ⟨-, hle⟩⟩
    · exact .inl hzero
    · exact .inr (by dsimp only at hle; omega)
  · refine fun hle => ⟨hi.confined, hle.imp id (fun hle => ⟨Nat.le_add_right _ _, ?_⟩)⟩
    omega

end Adds

section Next

variable {d : Delivery} (hi : m.Inv) (htakes : m.Takes p) (hnext : Next m.client.st p) (hblock : m.IsNext p)

include hi htakes hnext hblock

/-- A block is refused: rightly, unless it is the last one and fills the buffer. -/
theorem passed_refused (hbuf : m.readfile.buffer ≠ 0)
    (hfull : m.readfile.bufferlen.toNat ≤ m.file.length + (data p).length) :
    ((m.passed p ⟨-1, m.readfile, m.mem, []⟩).report.Reports ↔
        (((data p).length : Int) < m.client.st.blksize →
          m.file.length + (data p).length ≠ m.readfile.bufferlen.toNat)) ∧
      (m.passed p ⟨-1, m.readfile, m.mem, []⟩).report.Inv := by
  have hrun := hi.running htakes.1
  obtain ⟨-, -, heof, -⟩ := blockOf_data m.client.st hblock.1
  obtain ⟨-, hwhole, -⟩ := file_next hrun hblock
  have hstatus : (m.passed p ⟨-1, m.readfile, m.mem, []⟩).client.status = .returned (-1) := by
    rw [status_passed htakes hnext hrun.blksize]
    exact if_pos (.inl (by show (-1 : Int) ≤ 0; decide))
  have hcomplete : ((m.passed p ⟨-1, m.readfile, m.mem, []⟩).finish (-1)).Complete ↔ _ :=
    complete_passed htakes hnext
  have hinv : (m.passed p ⟨-1, m.readfile, m.mem, []⟩).Inv := by
    refine ⟨?_, sound_passed hi htakes hnext hblock, fun h => Status.noConfusion (hstatus.symm.trans h)⟩
    show ∀ w ∈ m.written ++ [], _
    rw [List.append_nil]
    exact hi.confined
  refine ⟨?_, hinv.report⟩
  rw [report_returned hstatus, finish_reports]
  unfold Right
  have hkind : ((m.passed p ⟨-1, m.readfile, m.mem, []⟩).finish (-1)).kind = .readFile := hrun.kind hbuf
  rw [hkind, hcomplete, heof, ← List.length_append]
  rw [← List.length_append] at hfull
  constructor
  · rintro ⟨hright, -⟩ hlast heq
    exact Result.noConfusion (hright.mpr ⟨hlast, hwhole hlast ▸ heq.le⟩)
  · refine fun h => ⟨⟨fun hs => Result.noConfusion hs, fun hs => ?_⟩, fun hs => Result.noConfusion hs⟩
    exact absurd (Nat.le_antisymm (hwhole hs.1 ▸ hs.2) hfull) (h hs.1)

theorem Adds.going (h : m.Adds p d) (heof : (blockOf m.client.st p).eof = false)
    (hconfined : (m.passed p d).Confined)
    (hroom : m.readfile.buffer ≠ 0 → (m.file ++ data p).length < m.readfile.bufferlen.toNat)
    (hcopied : m.readfile.buffer ≠ 0 → d.mem.Has m.readfile.buffer (m.file ++ data p)) :
    (m.passed p d).report.Reports ∧ (m.passed p d).report.Inv := by
  have hrun := hi.running htakes.1
  have hstatus : (m.passed p d).client.status = .waiting := by
    rw [status_passed htakes hnext hrun.blksize, h.rc, heof]
    rfl
  have hfile : (m.passed p d).file = m.file ++ data p := file_passed d
  have hcount : (m.passed p d).blocks.length = m.blocks.length + 1 := by simp [passed]
  obtain ⟨hlength, -, hlast, -⟩ := blockOf_data m.client.st hblock.1
  obtain ⟨htake, -, hinside⟩ := file_next hrun hblock
  have hfull : ¬ ((data p).length : Int) < m.client.st.blksize := by
    rw [← hlast, heof]
    exact Bool.false_ne_true
  refine ⟨?_, Inv.report ⟨hconfined, sound_passed hi htakes hnext hblock, fun _ => ?_⟩⟩
  · rw [report_of_ne (fun rc hrc => Status.noConfusion (hstatus.symm.trans hrc))]
    exact quiet_reports _
  · refine ⟨?_, ?_, fun hr => absurd (request_passed htakes hnext) hr, ?_, ?_, ?_, ?_, ?_, ?_⟩
    · rw [blksize_passed htakes hnext heof]
      exact hrun.blksize
    · rw [complete_passed htakes hnext, heof]
      exact Bool.false_ne_true
    · rw [hfile, hcount, blksize_passed htakes hnext heof]
      exact htake
    · rw [hcount, blksize_passed htakes hnext heof]
      exact hinside hfull
    · rw [hfile]
      show d.readfile.offset.toNat = _
      rw [h.readfile]
      exact offset_count hrun hlength
    · show d.readfile.buffer ≠ 0 → _ ∨ _ < d.readfile.bufferlen.toNat
      rw [h.buffer, h.bufferlen, hfile]
      exact fun hbuf => .inr (hroom hbuf)
    · show d.readfile.buffer ≠ 0 → d.mem.Has d.readfile.buffer _
      rw [h.buffer, hfile]
      exact hcopied
    · show d.readfile.buffer ≠ 0 → m.kind = .readFile
      rw [h.buffer]
      exact hrun.kind

theorem Adds.ended (h : m.Adds p d) (heof : (blockOf m.client.st p).eof = true)
    (hconfined : (m.passed p d).Confined) :
    (m.passed p d).report.Inv ∧ ((m.passed p d).finish 0).Complete ∧
      ((m.passed p d).report.Reports ↔ ((m.passed p d).finish 0).Right .success) := by
  have hrun := hi.running htakes.1
  have hstatus : (m.passed p d).client.status = .returned 0 := by
    rw [status_passed htakes hnext hrun.blksize, h.rc, heof]
    rfl
  refine ⟨Inv.report ⟨hconfined, sound_passed hi htakes hnext hblock, fun hw => ?_⟩,
    (complete_passed htakes hnext).mpr heof, ?_⟩
  · exact Status.noConfusion (hstatus.symm.trans hw)
  · rw [report_returned hstatus, finish_reports, if_pos rfl]

/-- A block that is copied is refused if it seems not to fit, and put behind the others otherwise. -/
theorem step_copied (hbuf : m.readfile.buffer ≠ 0) :
    ∃ d, m.Adds p d ∧ d.mem = m.mem.splice (m.readfile.buffer + m.file.length) (data p) ∧
      d.written = [(m.readfile.buffer + m.file.length, (data p).length)] ∧
      m.step files (.packet p) =
        (m.passed p (if m.readfile.bufferlen.toNat ≤ (m.file.length + (data p).length) % 2 ^ 32
          then ⟨-1, m.readfile, m.mem, []⟩ else d)).report := by
  have hrun := hi.running htakes.1
  obtain ⟨hsize, hbytes, -⟩ := blockOf_data m.client.st hblock.1
  have hsmall := hrun.small hbuf
  refine ⟨⟨if (blockOf m.client.st p).eof then 0 else 1, m.readfile.count (blockOf m.client.st p),
    m.mem.splice (m.readfile.buffer + m.file.length) (data p),
    [(m.readfile.buffer + m.file.length, (data p).length)]⟩, ⟨rfl, rfl⟩, rfl, rfl, ?_⟩
  rw [step_next htakes hnext, readBlock_copies hbuf, hrun.offset, Nat.mod_eq_of_lt hsmall, hsize, hbytes]

/-- The bytes so far and those of the block are in the buffer. -/
theorem Adds.copied (h : m.Adds p d) (hbuf : m.readfile.buffer ≠ 0)
    (hmem : d.mem = m.mem.splice (m.readfile.buffer + m.file.length) (data p))
    (hin : (m.passed p d).Confined)
    (hroom : (m.file ++ data p).length < m.readfile.bufferlen.toNat) :
    (m.passed p d).report.Reports ∧ (m.passed p d).report.Inv := by
  have hrun := hi.running htakes.1
  have hcopied : d.mem.Has m.readfile.buffer (m.file ++ data p) := by
    rw [hmem, Store.has_append]
    refine ⟨?_, Store.slice_splice_self _ _ _⟩
    exact (Store.slice_splice_of_disjoint _ (.inl (Nat.le_refl _))).trans (hrun.copied hbuf)
  cases hlast : (blockOf m.client.st p).eof with
  | true =>
    obtain ⟨hinv, hcomplete, hreports⟩ := h.ended hi htakes hnext hblock hlast hin
    have hwhole := (file_next hrun hblock).2.1 ((blockOf_data m.client.st hblock.1).2.2.1.mp hlast)
    exact ⟨hreports.mpr ((h.right_readFile (hrun.kind hbuf) hwhole hcomplete).mpr ⟨hroom.le, hcopied⟩), hinv⟩
  | false => exact h.going hi htakes hnext hblock hlast hin (fun _ => hroom) (fun _ => hcopied)

theorem next_copied (hbuf : m.readfile.buffer ≠ 0) :
    (m.Good files (.packet p) ↔ m.Fits p) ∧ (m.Fits p → (m.step files (.packet p)).Inv) := by
  have hrun := hi.running htakes.1
  obtain ⟨-, -, -, hshort⟩ := blockOf_data m.client.st hblock.1
  have hbound := m.readfile.bufferlen.toNat_lt
  have hsmall := hrun.small hbuf
  have hfits : m.Fits p ↔ m.file.length + (data p).length < 2 ^ 32 ∧
      (((data p).length : Int) < m.client.st.blksize →
        m.file.length + (data p).length ≠ m.readfile.bufferlen.toNat) := by
    unfold Fits
    rw [hrun.kind hbuf]
    exact iff_of_eq (if_pos hbuf)
  obtain ⟨d, hadds, hmem, hwritten, hstep⟩ := @step_copied m files p hi htakes hnext hblock hbuf
  have hconfined := confined_passed_cons hi hadds hwritten
  rw [hfits]
  by_cases hwrap : m.file.length + (data p).length < 2 ^ 32
  · rw [Nat.mod_eq_of_lt hwrap] at hstep
    by_cases hfull : m.readfile.bufferlen.toNat ≤ m.file.length + (data p).length
    · rw [if_pos hfull] at hstep
      obtain ⟨hreports, hinv⟩ := passed_refused hi htakes hnext hblock hbuf hfull
      rw [← hstep] at hreports hinv
      exact ⟨(good_iff hinv).trans (hreports.trans ⟨fun h => ⟨hwrap, h⟩, fun h => h.2⟩), fun _ => hinv⟩
    · rw [if_neg hfull] at hstep
      have hlt := Nat.not_le.mp hfull
      have hboth := hadds.copied hi htakes hnext hblock hbuf hmem (hconfined.mpr (.inr hlt.le))
        (List.length_append ▸ hlt)
      rw [← hstep] at hboth
      exact ⟨iff_of_true ((good_iff hboth.2).mpr hboth.1) ⟨hwrap, fun _ => hlt.ne⟩, fun _ => hboth.2⟩
  · -- the sum is small again, and bytes are copied far behind the buffer
    refine ⟨iff_of_false (fun hgood => ?_) (fun h => hwrap h.1), fun h => absurd h.1 hwrap⟩
    have hover : ¬ m.readfile.bufferlen.toNat ≤ (m.file.length + (data p).length) % 2 ^ 32 := by
      rcases hrun.room hbuf with hnil | hlt
      · rw [hnil, List.length_nil] at hwrap
        omega
      · omega
    rw [if_neg hover] at hstep
    have hbad : (m.passed p d).Confined := by
      obtain ⟨r, f, heq⟩ := (m.passed p d).report_eq
      have hgood := hgood.confined
      rw [hstep, heq] at hgood
      exact hgood
    rcases hconfined.mp hbad with hzero | hle
    · omega
    · omega

theorem next_counted (hbuf : m.readfile.buffer = 0) :
    (m.Good files (.packet p) ↔ m.Fits p) ∧ (m.step files (.packet p)).Inv := by
  have hrun := hi.running htakes.1
  obtain ⟨-, -, heof, -⟩ := blockOf_data m.client.st hblock.1
  obtain ⟨d, hadds, hmem, hwritten, hread⟩ : ∃ d, m.Adds p d ∧ d.mem = m.mem ∧ d.written = [] ∧
      pxeTftpReadBlock m.readfile m.mem (blockOf m.client.st p) = d :=
    ⟨_, ⟨rfl, rfl⟩, rfl, rfl, readBlock_counts hbuf⟩
  have hstep := @step_next m files p htakes hnext
  rw [hread] at hstep
  have hin := confined_passed_nil hi hadds hwritten
  cases hlast : (blockOf m.client.st p).eof with
  | false =>
    have hnotlast : ¬ ((data p).length : Int) < m.client.st.blksize := by
      rw [← heof, hlast]
      exact Bool.false_ne_true
    obtain ⟨hreports, hinv⟩ := hadds.going hi htakes hnext hblock hlast hin (fun h => absurd hbuf h)
      (fun h => absurd hbuf h)
    rw [← hstep] at hreports hinv
    refine ⟨iff_of_true ((good_iff hinv).mpr hreports) ?_, hinv⟩
    unfold Fits
    split
    · rw [if_neg (not_not.mpr hbuf)]
      exact fun h => absurd h hnotlast
    · exact fun h => absurd h hnotlast
  | true =>
    obtain ⟨hinv, hcomplete, hreports⟩ := hadds.ended hi htakes hnext hblock hlast hin
    have hwhole := (file_next hrun hblock).2.1 (heof.mp hlast)
    rw [← hstep] at hinv hreports
    refine ⟨(good_iff hinv).trans (hreports.trans ?_), hinv⟩
    have hislast := heof.mp hlast
    unfold Fits
    cases hkind : m.kind with
    | readFile =>
      rw [hadds.right_readFile hkind hwhole hcomplete, hmem, hbuf, List.length_append]
      exact ⟨fun h _ => h, fun h => h hislast⟩
    | getFsize =>
      rw [hadds.right_getFsize hrun hblock.1 hkind hwhole hcomplete, List.length_append]
      exact ⟨fun h _ => h, fun h => h hislast⟩

end Next

/-- What is taken for the next block is the next block, or what has been received is no longer sound. -/
theorem next_other (hi : m.Inv) (htakes : m.Takes p) (hnext : Next m.client.st p) (h : m.Good files (.packet p)) :
    m.IsNext p := by
  have hsound := h.sound
  rw [step_next htakes hnext] at hsound
  generalize pxeTftpReadBlock m.readfile m.mem (blockOf m.client.st p) = d at hsound
  obtain ⟨r, f, heq⟩ := (m.passed p d).report_eq
  rw [heq] at hsound
  have hfile : (m.passed p d).file = m.file ++ data p := file_passed d
  have hlen := hsound.long p (List.mem_append_right _ (List.mem_singleton_self p))
  refine isNext_of_begins (hi.running htakes.1) hnext hlen ?_ (fun hlast => ?_)
  · exact hfile ▸ hsound.begins
  · have hcomplete := (complete_passed (d := d) htakes hnext).mpr ((blockOf_data m.client.st hlen).2.2.1.mpr hlast)
    exact hfile.symm.trans (hsound.whole hcomplete)

/-- A packet: what it takes for the report to be right, and that this keeps the invariant. -/
theorem packet_spec (hi : m.Inv) (p : Packet) :
    (m.Good files (.packet p) ↔ m.Condition (.packet p)) ∧
      (m.Condition (.packet p) → (m.step files (.packet p)).Inv) := by
  by_cases htakes : m.Takes p
  · by_cases hnext : Next m.client.st p
    · have hcond : m.Condition (.packet p) ↔ m.IsNext p ∧ m.Fits p :=
        ⟨fun h => (h htakes).2.2 hnext, fun h _ => ⟨fun he => absurd he hnext.not_error,
          fun hr => not_next_of_oack hr.1 _ hnext, fun _ => h⟩⟩
      rw [hcond]
      by_cases hisnext : m.IsNext p
      · have hspec : (m.Good files (.packet p) ↔ m.Fits p) ∧
            (m.Fits p → (m.step files (.packet p)).Inv) := by
          by_cases hbuf : m.readfile.buffer = 0
          · obtain ⟨hgood, hinv⟩ := next_counted hi htakes hnext hisnext hbuf
            exact ⟨hgood, fun _ => hinv⟩
          · exact next_copied hi htakes hnext hisnext hbuf
        exact ⟨hspec.1.trans ⟨fun h => ⟨hisnext, h⟩, fun h => h.2⟩, fun h => hspec.2 h.2⟩
      · exact ⟨iff_of_false (fun h => hisnext (next_other hi htakes hnext h)) (fun h => hisnext h.1),
          fun h => absurd h.1 hisnext⟩
    · obtain ⟨hgood, hinv⟩ := packet_other hi htakes hnext
      exact ⟨hgood, fun _ => hinv⟩
  · have hstep : m.step files (.packet p) = m.quiet := if_neg htakes
    obtain ⟨hgood, hinv⟩ := quiet_spec hi hstep
    exact ⟨iff_of_true hgood (fun h => absurd h htakes), fun _ => hinv⟩

end Packets

/-! ## The calls -/

theorem start_spec (fileName : List UInt8) (txOk : Bool) (hoffset : m.readfile.offset = 0)
    (hkind : m.readfile.buffer ≠ 0 → m.kind = .readFile) :
    ((m.start files fileName txOk).Reports ↔ txOk = true) ∧ (m.start files fileName txOk).Inv := by
  have hnot : ¬ { m with
      client := Client.start m.client.st (fileName.takeWhile (· ≠ 0)) txOk,
      wanted := files (fileName.takeWhile (· ≠ 0)), blocks := [], written := [] }.Complete := by
    rintro ⟨b, hb, -⟩
    cases txOk with
    | true => cases hb
    | false => cases hb
  refine ⟨(report_reports hnot).trans ?_, Inv.report ⟨fun _ hw => absurd hw List.not_mem_nil,
    sound_nil rfl hnot, fun hwait => ?_⟩⟩
  · cases txOk with
    | true => exact iff_of_true (fun h => Status.noConfusion h) rfl
    | false => exact iff_of_false (fun h => h rfl) Bool.false_ne_true
  · cases txOk with
    | true =>
      refine ⟨?_, hnot, fun _ => rfl, ?_, ?_, ?_, fun _ => .inl rfl, fun _ => rfl, hkind⟩
      · show (0 : Int) < (defaultsizePacket : Int)
        decide
      · show [] = List.take (0 * _) _
        rw [Nat.zero_mul, List.take_zero]
      · exact (Nat.zero_mul _).trans_le (Nat.zero_le _)
      · rw [hoffset]
        rfl
    | false => exact Status.noConfusion hwait

theorem refuse_spec (hidle : m.Idle) : m.refuse.Reports ∧ m.refuse.Inv := by
  have hnot : ¬ m.refuse.Complete := fun h => absurd h.choose_spec.1 (Option.some_ne_none _).symm
  refine ⟨fun r hr => ?_, fun _ hw => absurd hw List.not_mem_nil, sound_nil rfl hnot,
    fun hwait => absurd hwait hidle.1⟩
  cases hr
  exact right_failure hnot (by decide)

/-- The beginning of both calls: `n` is the state in which `tftp` is called, `n'` the one in which it is not. -/
theorem call_spec (hi : m.Inv) {e : Event} {n n' : Machine} {ready txOk : Bool} {fileName : List UInt8}
    (hstep : m.step files e =
      if m.Idle then (if ready then n.start files fileName txOk else n'.refuse) else m.quiet)
    (hcond : m.Condition e ↔ (m.Idle → ready = true → txOk = true)) (hoffset : n.readfile.offset = 0)
    (hkind : n.readfile.buffer ≠ 0 → n.kind = .readFile) (hclient : n'.client = m.client) :
    (m.Good files e ↔ m.Condition e) ∧ (m.step files e).Inv := by
  rw [hcond]
  by_cases hidle : m.Idle
  · rw [if_pos hidle] at hstep
    cases ready with
    | true =>
      obtain ⟨hreports, hinv⟩ := start_spec fileName txOk hoffset hkind
      have hstep : m.step files e = n.start files fileName txOk := hstep
      rw [← hstep] at hreports hinv
      exact ⟨(good_iff hinv).trans (hreports.trans ⟨fun h _ _ => h, fun h => h hidle rfl⟩), hinv⟩
    | false =>
      obtain ⟨hreports, hinv⟩ := @refuse_spec n' (by unfold Idle; rw [hclient]; exact hidle)
      have hstep : m.step files e = n'.refuse := hstep
      rw [← hstep] at hreports hinv
      exact ⟨iff_of_true ((good_iff hinv).mpr hreports) (fun _ h => by cases h), hinv⟩
  · rw [if_neg hidle] at hstep
    obtain ⟨hgood, hinv⟩ := quiet_spec hi hstep
    exact ⟨iff_of_true hgood (fun h => absurd h hidle), hinv⟩

theorem readFile_spec (hi : m.Inv) (ready : Bool) (fileName : List UInt8) (bufferSize : UInt32) (buffer : Nat)
    (txOk : Bool) :
    (m.Good files (.readFile ready fileName bufferSize buffer txOk) ↔
        m.Condition (.readFile ready fileName bufferSize buffer txOk)) ∧
      (m.step files (.readFile ready fileName bufferSize buffer txOk)).Inv :=
  @call_spec m files hi _
    { m with kind := .readFile, kernelBuf := fileName, readfile := ⟨buffer, bufferSize, 0⟩ }
    { m with kind := .readFile } ready txOk fileName rfl Iff.rfl rfl (fun _ => rfl) rfl

theorem getFsize_spec (hi : m.Inv) (ready : Bool) (fileName : List UInt8) (txOk : Bool) :
    (m.Good files (.getFsize ready fileName txOk) ↔ m.Condition (.getFsize ready fileName txOk)) ∧
      (m.step files (.getFsize ready fileName txOk)).Inv :=
  @call_spec m files hi _ { m with kind := .getFsize, readfile := ⟨0, 0, 0⟩ } { m with kind := .getFsize } ready txOk
    fileName rfl Iff.rfl rfl (fun h => absurd rfl h) rfl

theorem step_spec (hi : m.Inv) (e : Event) :
    (m.Good files e ↔ m.Condition e) ∧ (m.Condition e → (m.step files e).Inv) := by
  cases e with
  | packet p => exact packet_spec hi p
  | timeout txOk =>
    obtain ⟨hgood, hinv⟩ := timeout_spec hi txOk
    exact ⟨hgood, fun _ => hinv⟩
  | readFile ready fileName bufferSize buffer txOk =>
    obtain ⟨hgood, hinv⟩ := readFile_spec hi ready fileName bufferSize buffer txOk
    exact ⟨hgood, fun _ => hinv⟩
  | getFsize ready fileName txOk =>
    obtain ⟨hgood, hinv⟩ := getFsize_spec hi ready fileName txOk
    exact ⟨hgood, fun _ => hinv⟩

/-! ## Runs -/

/-- **What is reported of a file is right and nothing is copied past the buffer**, in every step and whatever
    files the server has, exactly if in every step the condition holds. -/
theorem reports_file_iff (files : List UInt8 → List UInt8) (st : Statics) (kernelBuf : List UInt8) (mem : Store)
    (es : List Event) :
    AllSteps (step files) (Good files) (init st kernelBuf mem) es ↔
      AllSteps (step files) Condition (init st kernelBuf mem) es :=
  allSteps_iff Inv (fun _ e hi => (step_spec hi e).1) (fun _ e hi => (step_spec hi e).2)
    (init_inv st kernelBuf mem) es

end Machine

/-! ## Wrong reports -/

/-- Before the first call. -/
def idleMachine : Machine := .init ⟨2000, 69, .ack 0, 0, 0, 0⟩ [] (fun _ => 0)

/-- The first block, with three bytes, for the first port that the client uses. -/
def threeBytes : Packet := ⟨1069, 2001, 15, fun i => if i = 1 then 3 else if i = 3 then 1 else 0⟩

/-- The server cannot be reached, and `pxenv_tftp_read_file` and `pxenv_tftp_get_fsize` report a success. A file
    of three bytes is not read into a buffer of three bytes. -/
theorem wrong_file_reports :
    ¬ AllSteps (Machine.step fun _ => []) (Machine.Good fun _ => []) idleMachine
        [.readFile true [0x78, 0] 4096 0x10000 false] ∧
      ¬ AllSteps (Machine.step fun _ => []) (Machine.Good fun _ => []) idleMachine
        [.getFsize true [0x78, 0] false] ∧
      ¬ AllSteps (Machine.step fun _ => [0, 0, 0]) (Machine.Good fun _ => [0, 0, 0]) idleMachine
        [.readFile true [0x78, 0] 3 0x10000 true, .packet threeBytes] := by
  refine ⟨?_, ?_, ?_⟩
  · rintro ⟨hgood, -⟩
    obtain ⟨b, hb, -⟩ := ((hgood.reports .success rfl).1.mp rfl).1
    cases hb
  · rintro ⟨hgood, -⟩
    obtain ⟨b, hb, -⟩ := (hgood.reports .success rfl rfl).1
    cases hb
  · rintro ⟨-, hgood, -⟩
    have hright := (hgood.reports .failure rfl).1.mpr ⟨⟨_, rfl, rfl⟩, by decide⟩
    exact Result.noConfusion hright
end PxeFile
