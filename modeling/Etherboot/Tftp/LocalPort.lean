import Mathlib.Data.List.Induction
import Etherboot.Tftp.Client

set_option autoImplicit false

/-! # The client's local port

A TFTP transfer is identified by the two ports it runs between. Once the server has answered, the
client has to keep its own. On a timeout `tftp_block` takes a new local port if `blockidx` is 0,
meaning to repeat the request from there. But `blockidx` is also 0 after the server has acknowledged
the options, and again after 65536 blocks, and then it is an acknowledgement that leaves from the
wrong port. `portKept_iff` says that this is the only way for the port to change. -/

namespace Tftp

open Client

/-- `b` does not contradict the port that `a` received on. -/
def Act.agrees : Act → Act → Prop
  | .received p, .sent _ m => m.src = p
  | _, _ => True

/-- After a packet has been received on a port, everything is sent from that port. -/
def PortKept (log : List Act) : Prop := log.Pairwise Act.agrees

/-- A packet is repeated from a new port although one has been received. -/
def Strays (c : Client) (e : Event) : Prop :=
  c.status = .waiting ∧ e = .timeout true ∧ c.st.retry.toNat ≤ maxTftpRetries ∧
    c.st.blockidx = 0 ∧ ∃ p, .received p ∈ c.log

/-! ## One turn -/

/-- A turn stays on a port: it keeps `lport` there and sends from there only. -/
structure Turn.StaysOn (t : Turn) (port : UInt16) : Prop where
  lport : t.st.lport = port
  sent : ∀ m ∈ t.sent, m.src = port

variable (s : Statics)

theorem transmit_staysOn (out : Outcome) : (transmit s out).StaysOn s.lport :=
  ⟨rfl, by simp [transmit]⟩

theorem sendAck_staysOn (out : Outcome) : (sendAck s out).StaysOn s.lport :=
  transmit_staysOn _ out

theorem onOack_staysOn (request : Option Request) (p : Packet) :
    (onOack s request p).StaysOn s.lport := by
  unfold onOack
  split
  · exact sendAck_staysOn s _
  split
  · exact sendAck_staysOn s _
  split
  · exact ⟨rfl, by simp⟩
  next blksize _ =>
  split
  · exact transmit_staysOn { s with blksize := blksize, xmit := .error 8 "RFC1782 error" } _
  · exact sendAck_staysOn { s with blksize := blksize } _

theorem onData_staysOn (p : Packet) : (onData s p).StaysOn s.lport := by
  unfold onData
  split
  · exact sendAck_staysOn s _
  split
  · exact sendAck_staysOn s _
  · exact sendAck_staysOn _ _

/-- A received packet does not move the client to another port. -/
theorem onPacket_staysOn (request : Option Request) (p : Packet) :
    (onPacket s request p).StaysOn s.lport := by
  unfold onPacket
  split
  · exact ⟨rfl, by simp⟩
  split
  · exact onOack_staysOn (s.noted p) request p
  split
  · exact onData_staysOn (s.noted p) p
  · exact sendAck_staysOn (s.noted p) _

/-! ## One step -/

/-- While the client waits, every packet was received on the port it still has. -/
def Settled (c : Client) : Prop :=
  c.status = .waiting → ∀ p, .received p ∈ c.log → p = c.st.lport

variable {log : List Act} {c : Client}

/-- Sending from the port of all receptions keeps the log in order. -/
theorem PortKept.append_sent {ms : List Sent} {port : UInt16} (k : Nat)
    (h : PortKept log) (hlog : ∀ p, .received p ∈ log → p = port) (hms : ∀ m ∈ ms, m.src = port) :
    PortKept (log ++ ms.map (.sent k)) := by
  refine List.pairwise_append.mpr ⟨h, ?_, ?_⟩
  · rw [List.pairwise_map]
    exact List.pairwise_of_forall (fun _ _ => trivial)
  · intro a ha b hb
    obtain ⟨m, hm, rfl⟩ := List.mem_map.mp hb
    cases a with
    | received p =>
      show m.src = p
      rw [hms m hm, hlog p ha]
    | sent k' m' => trivial

theorem PortKept.append_received (h : PortKept log) (port : UInt16) :
    PortKept (log ++ [.received port]) := by
  refine List.pairwise_append.mpr ⟨h, List.pairwise_singleton _ _, ?_⟩
  intro a ha b hb
  rw [List.mem_singleton] at hb
  subst hb
  cases a <;> trivial

theorem mem_append_sent {ms : List Sent} {k : Nat} {p : UInt16} :
    .received p ∈ log ++ ms.map (.sent k) ↔ .received p ∈ log := by
  simp

/-- A step that does not stray keeps the port. -/
theorem step_kept {e : Event} (hset : Settled c) (hkept : PortKept c.log)
    (hstray : ¬ Strays c e) : Settled (c.step e) ∧ PortKept (c.step e).log := by
  rcases c.step_cases e with ⟨hstep, -⟩ | ⟨hwait, txOk, rfl, hstep⟩ | ⟨hwait, p, rc, rfl, hstep⟩
  · rw [hstep]
    exact ⟨hset, hkept⟩
  · rw [hstep]
    rcases onTimeout_cases c.st txOk with ⟨⟨rc, hout⟩, hsent, -⟩ | ⟨hretry, rfl, hturn⟩
    · refine ⟨fun hstill => ?_, ?_⟩
      · simp [turn, Turn.status, hout] at hstill
      · simpa [turn, hsent] using hkept
    · -- a packet was repeated, so either none had been received or the port is the same
      have hsame : ∀ q, .received q ∈ c.log →
          q = if c.st.blockidx = 0 then c.st.lport + 1 else c.st.lport := by
        intro q hq
        rw [if_neg (fun hzero => hstray ⟨hwait, rfl, hretry, hzero, q, hq⟩)]
        exact hset hwait q hq
      rw [hturn]
      refine ⟨fun _ q hq => ?_, ?_⟩
      · exact hsame q (mem_append_sent.mp hq)
      · exact hkept.append_sent _ hsame (by simp [transmit])
  · rw [hstep]
    have hstay := onPacket_staysOn c.st c.request p
    have hall : ∀ q, .received q ∈ c.receive.log → q = c.st.lport := by
      intro q hq
      rcases List.mem_append.mp hq with hq | hq
      · exact hset hwait q hq
      · simpa using hq
    refine ⟨fun _ q hq => ?_, (hkept.append_received _).append_sent _ hall hstay.sent⟩
    rw [show (turn _ _ rc).st.lport = c.st.lport from hstay.lport]
    exact hall q (mem_append_sent.mp hq)

/-- A step that strays breaks it. -/
theorem step_strays {e : Event} (hset : Settled c) (hstray : Strays c e) : ¬ PortKept (c.step e).log := by
  obtain ⟨hwait, rfl, hretry, hzero, p, hp⟩ := hstray
  intro hkept
  rcases onTimeout_cases c.st true with ⟨-, -, hover | hfalse⟩ | ⟨-, -, hturn⟩
  · omega
  · cases hfalse
  · rw [step_timeout hwait, hturn, if_pos hzero] at hkept
    have hsrc := (List.pairwise_append.mp hkept).2.2 (.received p) hp
    obtain rfl := hset hwait p hp
    simp [transmit, Act.agrees] at hsrc

/-! ## Whole runs -/

theorem start_settled (name : List UInt8) (txOk : Bool) :
    Settled (start s name txOk) ∧ PortKept (start s name txOk).log := by
  cases txOk with
  | true =>
    refine ⟨fun _ p hp => ?_, ?_⟩
    · simp [start, turn, newRequest, transmit] at hp
    · simp [PortKept, start, turn, newRequest, transmit]
  | false =>
    refine ⟨fun _ p hp => ?_, ?_⟩
    · simp [start, turn, newRequest] at hp
    · simp [PortKept, start, turn, newRequest]

/-- The run lemma, by induction on the events from the last one on. -/
theorem run_kept_iff (hset : Settled c) (hkept : PortKept c.log) (es : List Event) :
    (PortKept (c.run es).log → Settled (c.run es)) ∧
      (PortKept (c.run es).log ↔ ∀ pre e post, es = pre ++ e :: post → ¬ Strays (c.run pre) e) := by
  induction es using List.reverseRecOn with
  | nil => exact ⟨fun _ => hset, iff_of_true hkept (fun pre e post h => absurd h (by simp))⟩
  | append_singleton es e ih =>
    obtain ⟨hsettled, hiff⟩ := ih
    have hrun : c.run (es ++ [e]) = (c.run es).step e := by simp [Client.run]
    rw [hrun]
    have hback : PortKept ((c.run es).step e).log → PortKept (c.run es).log :=
      fun h => h.sublist (Client.step_prefix _ e).1.sublist
    have hno : PortKept ((c.run es).step e).log → ¬ Strays (c.run es) e :=
      fun h hs => step_strays (hsettled (hback h)) hs h
    refine ⟨fun h => (step_kept (hsettled (hback h)) (hback h) (hno h)).1, fun h => ?_, fun h => ?_⟩
    · intro pre e' post heq
      rcases List.eq_nil_or_concat post with rfl | ⟨post', e'', rfl⟩
      · obtain ⟨rfl, he⟩ := List.append_inj' heq rfl
        obtain rfl := List.singleton_inj.mp he
        exact hno h
      · rw [List.concat_eq_append, ← List.cons_append, ← List.append_assoc] at heq
        obtain ⟨rfl, -⟩ := List.append_inj' heq rfl
        exact hiff.mp (hback h) pre e' post' rfl
    · have hpre := hiff.mpr (fun pre e' post heq => h pre e' (post ++ [e]) (by simp [heq]))
      exact (step_kept (hsettled hpre) hpre (h es e [] rfl)).2

/-- **The local port of a transfer.** In every run of `tftp`, whatever packets and timeouts come in
    whatever order: after a packet has been received everything is sent from the port it was received
    on, if and only if no timeout repeats a packet while `blockidx` is 0 and a packet has been
    received. -/
theorem portKept_iff (s : Statics) (name : List UInt8) (txOk : Bool) (es : List Event) :
    PortKept ((Client.start s name txOk).run es).log ↔
      ∀ pre e post, es = pre ++ e :: post → ¬ Strays ((Client.start s name txOk).run pre) e := by
  obtain ⟨hset, hkept⟩ := start_settled s name txOk
  exact (run_kept_iff hset hkept es).2

/-- An option acknowledgement for a block size of 512, sent to port 2001. -/
def oack512 : Packet where
  src := 4000
  dst := 2001
  udpLen := 22
  body := fun i => ([0, 6, 0x62, 0x6c, 0x6b, 0x73, 0x69, 0x7a, 0x65, 0, 0x35, 0x31, 0x32, 0][i]?).getD 0

/-- The server acknowledges the options, the client acknowledges that, and then repeats its
    acknowledgement from the next port. -/
theorem ack_from_new_port :
    ((Client.start ⟨2000, 69, .ack 0, 0, 0, 0⟩ [] true).run
        [.packet oack512 1, .timeout true]).log
      = [.sent 0 ⟨2001, 69, .rrq [] 1432⟩, .received 2001, .sent 0 ⟨2001, 4000, .ack 0⟩,
          .sent 0 ⟨2002, 4000, .ack 0⟩] ∧
    ¬ PortKept ((Client.start ⟨2000, 69, .ack 0, 0, 0, 0⟩ [] true).run
        [.packet oack512 1, .timeout true]).log := by
  have hlog : ((start ⟨2000, 69, .ack 0, 0, 0, 0⟩ [] true).run
        [.packet oack512 1, .timeout true]).log
      = [.sent 0 ⟨2001, 69, .rrq [] 1432⟩, .received 2001, .sent 0 ⟨2001, 4000, .ack 0⟩,
          .sent 0 ⟨2002, 4000, .ack 0⟩] := by rfl
  refine ⟨hlog, fun hkept => ?_⟩
  rw [hlog] at hkept
  simp [PortKept, Act.agrees] at hkept

end Tftp
