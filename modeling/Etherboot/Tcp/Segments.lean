import Etherboot.Tcp.Request

set_option autoImplicit false

/-! # The segments of a connection

A client, a server and the network between them. What the server sends stays on the wire and may be
received any number of times, at any time, or never. The server may send anything that TCP lets it
send; all that matters is that it begins with its SYN: until it has seen the client acknowledge it,
nothing else comes from the server, except an RST. `segments_carry_request` says that every segment
of the client then carries the request's bytes at its sequence number. -/

namespace Tcp

open Memory Conn

variable {β : Type}

structure World (β : Type) where
  client : Conn Outbox β
  wire : List Store

/-- The steps of the client and of the server. -/
inductive Step (recv : Nat → Store → Nat → β → Bool × β) : World β → World β → Prop where
  | timeout (w : World β) (sends : Bool) :
      Step recv w { w with client := w.client.step (requestCallbacks recv) (.timeout sends) }
  | deliver (w : World β) (p : Store) (sends : Bool) (hp : p ∈ w.wire) :
      Step recv w { w with client := w.client.step (requestCallbacks recv) (.packet p sends) }
  | serve (w : World β) (p : Store)
      (hp : hasFlag p SYN = true ∨ hasFlag p RST = true ∨
        ∃ t ∈ w.client.sent, t.ctrl &&& ACK ≠ 0) :
      Step recv w { w with wire := p :: w.wire }

/-- A transaction for `request` that begins with the sequence number `isn`. -/
def transaction (recv : Nat → Store → Nat → β → Bool × β) (request : List UInt8) (isn : Nat) :
    Transition (World β) where
  init w := ∃ buf user sends, w = ⟨Conn.start isn buf ⟨request, 0⟩ user sends, []⟩
  step := Step recv

/-- A segment with `k` bytes carries the `k` bytes of the request at its place. -/
def Sent.Carries (request : List UInt8) (isn : Nat) (t : Sent) : Prop :=
  t.data = (request.drop (wsub t.seq (isn + 1))).take t.data.length

/-- The handshake is over. -/
def State.Open (s : State) : Prop := s ≠ .closed ∧ s ≠ .synRcvd
  deriving Decidable

section Invariant

variable {recv : Nat → Store → Nat → β → Bool × β} {request : List UInt8} {isn : Nat}

/-- The part of the invariant about the sender: until the handshake is over there is nothing to
    send. -/
structure Ready (request : List UInt8) (isn : Nat) (c : Conn Outbox β) : Prop where
  opening : ¬ c.state.Open → c.snd.At request isn 0 ∧ c.snd.canSend = 0
  opened : c.state.Open → ∃ acked, c.snd.At request (isn + 1) acked

/-- In the state `CLOSED` the client has acknowledged nothing. -/
structure Silent (c : Conn Outbox β) : Prop where
  ctrl : c.ctrl = SYN
  sent : ∀ t ∈ c.sent, t.ctrl &&& ACK = 0

structure Inv (request : List UInt8) (isn : Nat) (w : World β) : Prop where
  carries : ∀ t ∈ w.client.sent, t.Carries request isn
  ready : w.client.status = .waiting → Ready request isn w.client
  silent : w.client.status = .waiting → w.client.state = .closed → Silent w.client
  wire : w.client.status = .waiting → w.client.state = .closed →
    ∀ p ∈ w.wire, hasFlag p SYN = true ∨ hasFlag p RST = true

theorem Sender.At.carries {s : Sender Outbox} {acked : Nat} (h : s.At request (isn + 1) acked)
    (hlen : request.length < 2 ^ 31) {t : Sent} (hseq : t.seq = s.sendSeq)
    (hdata : t.data = s.buf.slice dataOffset s.canSend) : t.Carries request isn := by
  have hbytes := h.bytesSent
  have hle := h.bytesSent_le
  have hoffset : wsub t.seq (isn + 1) = acked := by
    rw [hseq, h.sendSeq, wsub]
    omega
  rw [Sent.Carries, hoffset, hdata, Store.length_slice]
  exact h.data

/-- A sender that has nothing to send, or the request at its place. -/
def Sender.Good (request : List UInt8) (isn : Nat) (s : Sender Outbox) : Prop :=
  s.canSend = 0 ∨ ∃ acked, s.At request (isn + 1) acked

variable {c : Conn Outbox β} {p : Store} {sends : Bool}

theorem Ready.good (h : Ready request isn c) : c.snd.Good request isn := by
  by_cases hopen : c.state.Open
  · exact Or.inr (h.opened hopen)
  · exact Or.inl (h.opening hopen).2

theorem Sender.Good.transmits {c' : Conn Outbox β} (h : c.snd.Good request isn)
    (hlen : request.length < 2 ^ 31) (ht : c.Transmits c')
    (hsent : ∀ t ∈ c.sent, t.Carries request isn) : ∀ t ∈ c'.sent, t.Carries request isn := by
  rcases ht with heq | ⟨t, heq, hdata⟩
  · rw [heq]
    exact hsent
  · intro t' ht'
    rw [heq] at ht'
    rcases List.mem_append.mp ht' with ht' | ht'
    · exact hsent t' ht'
    · rw [List.mem_singleton.mp ht']
      have hnil : t.data = [] → t.Carries request isn := fun h => by simp [Sent.Carries, h]
      rcases hdata with hdata | ⟨hseq, hdata⟩
      · exact hnil hdata
      · rcases h with hzero | ⟨acked, hat⟩
        · refine hnil ?_
          rw [hdata, hzero]
          rfl
        · exact hat.carries hlen hseq hdata

/-- An acknowledgement that is accepted brings the sender behind the handshake. -/
theorem Ready.acked (h : Ready request isn c) (hacks : c.Acks p) :
    ∃ acked, (c.acked (requestCallbacks recv) p).At request (isn + 1) acked := by
  by_cases hopen : c.state.Open
  · obtain ⟨acked, hat⟩ := h.opened hopen
    have hsyn : c.synAck = 0 := if_neg (not_or.mpr hopen)
    have hnext : (c.acked (requestCallbacks recv) p).At request _ _ := hat.of_acks hacks
    rw [hsyn] at hnext
    exact ⟨_, hnext⟩
  · have hsyn : c.synAck = 1 := if_pos (by unfold State.Open at hopen; tauto)
    have hnext : (c.acked (requestCallbacks recv) p).At request _ _ :=
      (h.opening hopen).1.of_acks hacks
    rw [hsyn] at hnext
    exact ⟨_, hnext⟩

theorem Ready.of_open (hopen : c.state.Open)
    (hat : ∃ acked, c.snd.At request (isn + 1) acked) : Ready request isn c :=
  ⟨fun hno => absurd hopen hno, fun _ => hat⟩

theorem consumeData_open {cb : Callbacks Outbox β}
    (h : c.state.Open) : (c.consumeData cb p sends).state.Open := by
  by_cases hest : c.state = .established
  · rcases consumeData_established cb c p sends hest with hs | hs <;> rw [hs] <;> decide
  · rw [consumeData_of_ne cb c p sends hest, finishTurn_state c p sends h.1]
    exact h

/-- A SYN in `CLOSED` that does not end the connection opens it. -/
theorem finishTurn_closed (c : Conn Outbox β) (h : c.state = .closed)
    (hsyn : hasFlag p SYN = true) (hwait : (c.finishTurn p sends).status = .waiting) :
    (c.finishTurn p sends).state = if hasFlag p ACK = true then .established else .synRcvd := by
  unfold finishTurn at *
  by_cases hfin : hasFlag p FIN = true
  · rw [if_pos hfin] at hwait
    cases hwait
  · rw [if_neg hfin]
    cases hack : hasFlag p ACK with
    | true =>
      simp only [h, hsyn, and_self, if_true, and_false, if_false, Bool.true_eq_false]
      split <;> simp
    | false => simp [h, hsyn]

/-- Where a segment leads that gets to its data: behind the handshake, with an acknowledgement if it
    was not over, or into `SYN_RCVD`. -/
theorem taken_state {cb : Callbacks Outbox β} {c' : Conn Outbox β}
    (h : Taken cb c p c') (hp : c.state = .closed → hasFlag p SYN = true ∨ hasFlag p RST = true)
    (hwait : (c'.consumeData cb p sends).status = .waiting) :
    ((c'.consumeData cb p sends).state.Open ∧
      (c.state.Open ∧ c'.snd = c.snd ∨ c.Acks p ∧ c'.snd = c.acked cb p)) ∨
      ((c'.consumeData cb p sends).state = .synRcvd ∧ ¬ c.state.Open ∧ c'.snd = c.snd) := by
  cases h with
  | closing hstate =>
    have hopen : c.state.Open := by rcases hstate with hs | hs <;> rw [hs] <;> decide
    exact Or.inl ⟨consumeData_open (show State.Open .finWait2 by decide), Or.inl ⟨hopen, rfl⟩⟩
  | opening hstate hacks =>
    exact Or.inl ⟨consumeData_open (show State.Open .established by decide), Or.inr ⟨hacks, rfl⟩⟩
  | acked hstate hacks hrst =>
    refine Or.inl ⟨?_, Or.inr ⟨hacks, rfl⟩⟩
    by_cases hclosed : c.state = .closed
    · have hsyn : hasFlag p SYN = true := (hp hclosed).resolve_right (by simp [hrst])
      rw [consumeData_of_ne _ { c with retry := 10, snd := _ } _ _
        (show c.state ≠ _ by rw [hclosed]; nofun)] at hwait ⊢
      rw [finishTurn_closed { c with retry := 10, snd := _ } hclosed hsyn hwait, if_pos hacks.ack]
      exact ⟨nofun, nofun⟩
    · exact consumeData_open ⟨hclosed, hstate⟩
  | plain hack hrst =>
    by_cases hopen : c.state.Open
    · exact Or.inl ⟨consumeData_open hopen, Or.inl ⟨hopen, rfl⟩⟩
    · have hest : c.state ≠ .established := fun hs => hopen (by rw [hs]; decide)
      refine Or.inr ⟨?_, hopen, rfl⟩
      rw [consumeData_of_ne _ { c with retry := 10 } _ _ hest] at hwait ⊢
      by_cases hclosed : c.state = .closed
      · have hsyn : hasFlag p SYN = true := (hp hclosed).resolve_right (by simp [hrst])
        rw [finishTurn_closed { c with retry := 10 } hclosed hsyn hwait, if_neg (by simp [hack])]
      · rw [finishTurn_state { c with retry := 10 } p sends hclosed]
        unfold State.Open at hopen
        tauto

theorem deliver_ready (h : Ready request isn c)
    (hp : c.state = .closed → hasFlag p SYN = true ∨ hasFlag p RST = true)
    (hwait : (c.gotData (requestCallbacks recv) p sends).status = .waiting) :
    Ready request isn (c.gotData (requestCallbacks recv) p sends) := by
  rcases gotData_cases (requestCallbacks recv) c p sends with href | ⟨c', htaken, heq⟩
  · rcases href.snd with ⟨-, hsnd⟩ | ⟨-, -, hret⟩
    · exact ⟨fun ho => hsnd ▸ h.opening (href.state ▸ ho), fun ho => hsnd ▸ h.opened (href.state ▸ ho)⟩
    · cases hret.symm.trans hwait
  · rw [heq] at hwait ⊢
    rcases taken_state htaken hp hwait with ⟨hopen, ⟨ho, hsnd⟩ | ⟨hacks, hsnd⟩⟩ | ⟨hs, hno, hsnd⟩
    · exact .of_open hopen (by rw [consumeData_snd, hsnd]; exact h.opened ho)
    · exact .of_open hopen (by rw [consumeData_snd, hsnd]; exact h.acked hacks)
    · refine ⟨fun _ => ?_, fun ho => absurd hs ho.2⟩
      rw [consumeData_snd, hsnd]
      exact h.opening hno

theorem deliver_silent (h : c.state = .closed → Silent c)
    (hp : c.state = .closed → hasFlag p SYN = true ∨ hasFlag p RST = true)
    (hwait : (c.gotData (requestCallbacks recv) p sends).status = .waiting)
    (hclosed : (c.gotData (requestCallbacks recv) p sends).state = .closed) :
    c.state = .closed ∧ Silent (c.gotData (requestCallbacks recv) p sends) := by
  rcases gotData_cases (requestCallbacks recv) c p sends with href | ⟨c', htaken, heq⟩
  · have hstate := href.state.symm.trans hclosed
    refine ⟨hstate, href.ctrl.trans (h hstate).ctrl, fun t ht => ?_⟩
    rcases href.sent t ht with ht | ht
    · exact (h hstate).sent t ht
    · rw [ht]
      decide
  · rw [heq] at hwait hclosed
    rcases taken_state htaken hp hwait with ⟨hopen, -⟩ | ⟨hs, -⟩
    · exact absurd hclosed hopen.1
    · cases hclosed.symm.trans hs

theorem deliver_carries (h : Ready request isn c) (hlen : request.length < 2 ^ 31)
    (hsent : ∀ t ∈ c.sent, t.Carries request isn) (p : Store) (sends : Bool) :
    ∀ t ∈ (c.gotData (requestCallbacks recv) p sends).sent, t.Carries request isn := by
  rcases gotData_cases (requestCallbacks recv) c p sends with href | ⟨c', htaken, heq⟩
  · exact h.good.transmits hlen href.transmits hsent
  · have hgood : c.Acks p → (c.acked (requestCallbacks recv) p).Good request isn :=
      fun hacks => Or.inr (h.acked hacks)
    have hc' : c'.snd.Good request isn ∧ c'.sent = c.sent := by
      cases htaken with
      | closing _ => exact ⟨h.good, rfl⟩
      | opening _ hacks => exact ⟨hgood hacks, rfl⟩
      | acked _ hacks _ => exact ⟨hgood hacks, rfl⟩
      | plain _ _ => exact ⟨h.good, rfl⟩
    rw [heq]
    exact hc'.1.transmits hlen (consumeData_transmits ..) (hc'.2 ▸ hsent)

theorem timeout_ready (h : Ready request isn c) (sends : Bool) : Ready request isn (c.timedOut sends) := by
  obtain ⟨hsnd, -, -, -, hstate⟩ := c.timedOut_cases sends
  by_cases hest : c.state = .established
  · rw [if_pos hest] at hstate
    refine .of_open (by rw [hstate]; decide) ?_
    rw [hsnd]
    exact h.opened (by rw [hest]; decide)
  · rw [if_neg hest] at hstate
    exact ⟨fun ho => hsnd ▸ h.opening (hstate ▸ ho), fun ho => hsnd ▸ h.opened (hstate ▸ ho)⟩

theorem timeout_silent (hclosed : c.state = .closed) (h : Silent c)
    (sends : Bool) : Silent (c.timedOut sends) := by
  have hsend : ∀ r, Silent (({ c with retry := r }.sendData sends)) := by
    intro r
    cases sends with
    | false => exact ⟨h.ctrl, h.sent⟩
    | true =>
      refine ⟨h.ctrl, fun t ht => ?_⟩
      rcases List.mem_append.mp ht with ht | ht
      · exact h.sent t ht
      · rw [List.mem_singleton.mp ht]
        show c.ctrl &&& ACK = 0
        rw [h.ctrl]
        rfl
  unfold timedOut
  split
  all_goals try (next hs => rw [hs] at hclosed; cases hclosed)
  simp only
  split
  · exact ⟨h.ctrl, by simpa [hclosed] using h.sent⟩
  · exact hsend _

/-- A turn of the client, on a timeout or on a segment that may be on the wire. -/
theorem turn_inv {w : World β} (h : Inv request isn w) (hlen : request.length < 2 ^ 31) {e : Event}
    (he : ∀ p sends, e = .packet p sends → p ∈ w.wire) :
    Inv request isn { w with client := w.client.step (requestCallbacks recv) e } := by
  by_cases hwait : w.client.status = .waiting
  · have hready := h.ready hwait
    cases e with
    | timeout sends =>
      obtain ⟨-, -, -, htransmits, hstate⟩ := w.client.timedOut_cases sends
      have hclosed : (w.client.timedOut sends).state = .closed → w.client.state = .closed := by
        rw [hstate]
        split
        · exact nofun
        · exact id
      rw [w.client.step_timeout _ sends hwait]
      exact ⟨hready.good.transmits hlen htransmits h.carries, fun _ => timeout_ready hready sends,
        fun _ hs => timeout_silent (hclosed hs) (h.silent hwait (hclosed hs)) sends,
        fun _ hs => h.wire hwait (hclosed hs)⟩
    | packet p sends =>
      have hp : w.client.state = .closed → hasFlag p SYN = true ∨ hasFlag p RST = true :=
        fun hs => h.wire hwait hs p (he p sends rfl)
      rw [w.client.step_packet _ p sends hwait]
      exact ⟨deliver_carries hready hlen h.carries p sends, deliver_ready hready hp,
        fun hw hs => (deliver_silent (h.silent hwait) hp hw hs).2,
        fun hw hs => h.wire hwait (deliver_silent (h.silent hwait) hp hw hs).1⟩
  · rw [w.client.step_returned _ hwait e]
    exact h

theorem step_inv {w w' : World β} (hlen : request.length < 2 ^ 31) (h : Inv request isn w)
    (hstep : Step recv w w') : Inv request isn w' := by
  cases hstep with
  | timeout sends => exact turn_inv h hlen nofun
  | deliver p sends hp =>
    refine turn_inv h hlen (fun p' sends' heq => ?_)
    cases heq
    exact hp
  | serve p hp =>
    refine ⟨h.carries, h.ready, h.silent, fun hw hs q hq => ?_⟩
    rcases List.mem_cons.mp hq with hq | hq
    · rw [hq]
      -- the client has not acknowledged anything
      rcases hp with hsyn | hrst | ⟨t, ht, hack⟩
      · exact Or.inl hsyn
      · exact Or.inr hrst
      · exact absurd ((h.silent hw hs).sent t ht) hack
    · exact h.wire hw hs q hq

theorem init_inv (buf : Store) (user : β) (sends : Bool) :
    Inv request isn ⟨start isn buf ⟨request, 0⟩ user sends, []⟩ := by
  have hat := start_at isn buf request user sends
  have hzero : (start isn buf (⟨request, 0⟩ : Outbox) user sends).snd.canSend = 0 := by
    rw [start, sendData_snd]
  have hstate : (start isn buf (⟨request, 0⟩ : Outbox) user sends).state = .closed :=
    sendData_state ..
  -- all that has been sent is a SYN
  have hsent : ∀ t ∈ (start isn buf (⟨request, 0⟩ : Outbox) user sends).sent,
      t.data = [] ∧ t.ctrl = SYN := by
    cases sends with
    | false =>
      intro t ht
      cases ht
    | true =>
      intro t ht
      rw [List.mem_singleton.mp ht]
      exact ⟨rfl, rfl⟩
  refine ⟨fun t ht => ?_, fun _ => ⟨fun _ => ⟨hat, hzero⟩, fun ho => absurd hstate ho.1⟩,
    fun _ _ => ⟨?_, fun t ht => ?_⟩, fun _ _ p hp => by cases hp⟩
  · simp [Sent.Carries, (hsent t ht).1]
  · cases sends <;> rfl
  · rw [(hsent t ht).2]
    rfl

end Invariant

/-- **The request's bytes are at their sequence numbers** in every segment that the client ever
    transmits. `send_length` is an `int`. -/
theorem segments_carry_request (recv : Nat → Store → Nat → β → Bool × β) (request : List UInt8)
    (hlen : request.length < 2 ^ 31) (isn : Nat) (w : World β)
    (hw : (transaction recv request isn).Reachable w) :
    ∀ t ∈ w.client.sent, t.Carries request isn := by
  refine (hw.invariant (P := Inv request isn) ?_ ?_).carries
  · rintro s ⟨buf, user, sends, rfl⟩
    exact init_inv buf user sends
  · intro s t _ hs hstep
    exact step_inv hlen hs hstep

/-- The request of 98 bytes after the server's SYN: 88 bytes are sent, at the sequence number 101. -/
theorem longRequest_carried :
    ∃ t ∈ (longRequest.step (requestCallbacks takeAll)
        (.packet (segment 500 101 (SYN ||| ACK) []) true)).sent,
      t.seq = 101 ∧ t.data.length = 88 ∧ t.Carries (List.replicate 98 65) 100 := by
  have hsyn : hasFlag (segment 500 101 (SYN ||| ACK) []) SYN = true := by decide +kernel
  have hstart : (transaction takeAll (List.replicate 98 65) 100).Reachable ⟨longRequest, []⟩ :=
    .init ⟨_, _, _, rfl⟩
  have hserve := hstart.step (Step.serve ⟨longRequest, []⟩ _ (Or.inl hsyn))
  have hdeliver := hserve.step (Step.deliver _ _ true (List.mem_singleton_self _))
  have hsent : (longRequest.step (requestCallbacks takeAll)
      (.packet (segment 500 101 (SYN ||| ACK) []) true)).sent =
      [⟨100, 0, 3 * minWindow, SYN, []⟩,
        ⟨101, 501, 3 * minWindow, PSH ||| ACK, List.replicate 88 65⟩] := by decide +kernel
  refine ⟨_, hsent ▸ List.mem_cons_of_mem _ (List.mem_singleton_self _), rfl, rfl, ?_⟩
  exact segments_carry_request takeAll _ (by decide) 100 _ hdeliver _
    (hsent ▸ List.mem_cons_of_mem _ (List.mem_singleton_self _))

end Tcp
