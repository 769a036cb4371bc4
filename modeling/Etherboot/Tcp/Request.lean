import Etherboot.Lib.Transition
import Etherboot.Tcp.Client

set_option autoImplicit false

/-! # The request on a TCP connection

`send_tcp_request` hands out a request piece by piece. What `tcp_transaction` has in its buffer are
the bytes of the request behind those that the server has acknowledged (`Sender.At`). From this
follow the contents of all segments. Whether the whole request is sent is another matter: `sent_all`
is also set when the buffer is full (`sentAll_iff`). -/

namespace Tcp

open Memory Store

/-- The part of `struct send_recv_state` that `send_tcp_request` uses; `send_length` is the length of
    the text. -/
structure Outbox where
  sendBuffer : List UInt8
  bytesSent : Nat
  deriving DecidableEq, Repr

def sendTcpRequest (length : Nat) (s : Outbox) : List UInt8 × Outbox :=
  let length :=
    if length > s.sendBuffer.length - s.bytesSent then s.sendBuffer.length - s.bytesSent else length
  ((s.sendBuffer.drop s.bytesSent).take length, { s with bytesSent := s.bytesSent + length })

/-- `send_tcp_request` with any function for what is received. -/
def requestCallbacks {β : Type} (recv : Nat → Store → Nat → β → Bool × β) : Callbacks Outbox β :=
  ⟨sendTcpRequest, recv⟩

/-- The room for data in the buffer. -/
def room : Nat := bufSize - dataOffset

theorem sendTcpRequest_eq (n : Nat) (s : Outbox) :
    sendTcpRequest n s =
      ((s.sendBuffer.drop s.bytesSent).take (min n (s.sendBuffer.length - s.bytesSent)),
        { s with bytesSent := s.bytesSent + min n (s.sendBuffer.length - s.bytesSent) }) := by
  have hmin : (if n > s.sendBuffer.length - s.bytesSent then s.sendBuffer.length - s.bytesSent else n) =
      min n (s.sendBuffer.length - s.bytesSent) := by
    split <;> omega
  simp only [sendTcpRequest, hmin]

section Sender

variable {β : Type} {recv : Nat → Store → Nat → β → Bool × β} {request : List UInt8}
  {s : Sender Outbox} {base acked consumed : Nat}

/-- The state of a sender whose first `acked` bytes of the request are acknowledged, where the request
    begins at the sequence number `base`: the next bytes of the request are in the buffer. -/
structure Sender.At (request : List UInt8) (base acked : Nat) (s : Sender Outbox) : Prop where
  sendBuffer : s.out.sendBuffer = request
  sendSeq : s.sendSeq = (base + acked) % 2 ^ 32
  bytesSent : s.out.bytesSent = acked + s.canSend
  bytesSent_le : s.out.bytesSent ≤ request.length
  canSend_le : s.canSend ≤ room
  data : s.buf.slice dataOffset s.canSend = (request.drop acked).take s.canSend

/-- The number of bytes that `send` is asked for and gives after an acknowledgement. -/
def Sender.refill (request : List UInt8) (s : Sender Outbox) (consumed : Nat) : Nat :=
  if s.sentAll then 0 else min (room - (s.canSend - consumed)) (request.length - s.out.bytesSent)

/-- What an acknowledgement does: what is left moves to the front of the buffer, which is then filled
    up, unless all has been sent. -/
theorem acknowledge_eq (hs : s.At request base acked) (synAck : Nat) :
    s.acknowledge (requestCallbacks recv) consumed synAck =
      { sendSeq := (s.sendSeq + (consumed + synAck)) % 2 ^ 32
        canSend := s.canSend - consumed + s.refill request consumed
        sentAll := s.sentAll || s.refill request consumed == 0
        buf := splice
          (if s.canSend - consumed ≠ 0 then
            s.buf.splice dataOffset (s.buf.slice (dataOffset + consumed) (s.canSend - consumed))
          else s.buf) (dataOffset + (s.canSend - consumed))
          ((request.drop s.out.bytesSent).take (s.refill request consumed))
        out := ⟨request, s.out.bytesSent + s.refill request consumed⟩ } := by
  have hbuf := hs.sendBuffer
  have hle := hs.canSend_le
  obtain ⟨sendSeq, canSend, sentAll, buf, ⟨sendBuffer, bytesSent⟩⟩ := s
  simp only at hbuf hle
  subst hbuf
  cases sentAll with
  | true => simp [Sender.acknowledge, Sender.refill, splice_nil]
  | false =>
    simp only [Sender.acknowledge, Sender.refill, Bool.false_eq_true, if_false, Bool.false_or]
    by_cases hfull : room - (canSend - consumed) = 0
    · -- there is no room, and `send` is not asked
      have hmore : (bufSize : Int) - (dataOffset + (canSend - consumed) : Nat) = 0 := by
        unfold room bufSize dataOffset at *
        omega
      rw [hmore, if_neg (by decide), hfull]
      simp [splice_nil]
    · have hmore : (bufSize : Int) - (dataOffset + (canSend - consumed) : Nat) =
          (room - (canSend - consumed) : Nat) := by
        unfold room bufSize dataOffset at *
        omega
      rw [hmore, if_pos (by omega), Int.toNat_natCast]
      simp only [requestCallbacks, sendTcpRequest_eq, List.length_take, List.length_drop]
      simp only [Nat.min_assoc, Nat.min_self]

theorem Sender.refill_le (request : List UInt8) (s : Sender Outbox) (consumed : Nat) :
    s.refill request consumed ≤ room - (s.canSend - consumed) ∧
      s.refill request consumed ≤ request.length - s.out.bytesSent := by
  unfold Sender.refill
  split <;> omega

theorem Sender.At.left (h : s.At request base acked) (hle : consumed ≤ s.canSend) :
    s.buf.slice (dataOffset + consumed) (s.canSend - consumed) =
      (request.drop (acked + consumed)).take (s.canSend - consumed) := by
  have hdata := congrArg (List.drop consumed) h.data
  rw [show s.canSend = consumed + (s.canSend - consumed) by omega, slice_append,
    List.take_add, List.drop_left' (by simp), List.drop_left' ?_, List.drop_drop] at hdata
  · exact hdata
  · have := h.bytesSent
    have := h.bytesSent_le
    rw [List.length_take, List.length_drop]
    omega

/-- An acknowledgement keeps the buffer and the request in step. -/
theorem Sender.At.acknowledge (h : s.At request base acked) (hle : consumed ≤ s.canSend) (synAck : Nat) :
    (s.acknowledge (requestCallbacks recv) consumed synAck).At request (base + synAck)
      (acked + consumed) := by
  have hbytes := h.bytesSent
  have hbytesLe := h.bytesSent_le
  obtain ⟨hk, hk'⟩ := s.refill_le request consumed
  have hlen : ((request.drop s.out.bytesSent).take (s.refill request consumed)).length =
      s.refill request consumed := by
    rw [List.length_take, List.length_drop]
    omega
  have hroom := h.canSend_le
  rw [acknowledge_eq h]
  generalize s.refill request consumed = k at *
  refine ⟨rfl, ?_, ?_, ?_, ?_, ?_⟩
  · show (s.sendSeq + (consumed + synAck)) % 2 ^ 32 = _
    rw [h.sendSeq]
    omega
  · show s.out.bytesSent + k = acked + consumed + (s.canSend - consumed + k)
    omega
  · show s.out.bytesSent + k ≤ request.length
    omega
  · show s.canSend - consumed + k ≤ room
    omega
  · -- the front of the buffer, then what was added
    have hfront : ∀ b : Store, b.slice dataOffset (s.canSend - consumed) =
        (request.drop (acked + consumed)).take (s.canSend - consumed) →
        (b.splice (dataOffset + (s.canSend - consumed))
          ((request.drop s.out.bytesSent).take k)).slice dataOffset (s.canSend - consumed + k) =
        (request.drop (acked + consumed)).take (s.canSend - consumed + k) := by
      intro b hb
      have hnew := slice_splice_self b (dataOffset + (s.canSend - consumed))
        ((request.drop s.out.bytesSent).take k)
      rw [hlen] at hnew
      rw [slice_append, slice_splice_of_disjoint _ (Or.inl (Nat.le_refl _)), hb, hnew,
        List.take_add, List.drop_drop,
        show acked + consumed + (s.canSend - consumed) = s.out.bytesSent by omega]
    apply hfront
    split
    · have hmoved := slice_splice_self s.buf dataOffset
        (s.buf.slice (dataOffset + consumed) (s.canSend - consumed))
      rw [length_slice] at hmoved
      rw [hmoved, h.left hle]
    · next hzero =>
      have hempty : s.canSend - consumed = 0 := by omega
      rw [hempty]
      rfl

end Sender

/-! ## Whether all is sent -/

section SentAll

variable {β : Type} {recv : Nat → Store → Nat → β → Bool × β} {request : List UInt8}
  {c : Conn Outbox β} {base acked : Nat}

/-- When `sent_all` is set, the whole request has been handed out. -/
def Told (request : List UInt8) (c : Conn Outbox β) : Prop :=
  c.snd.sentAll = true → c.snd.out.bytesSent = request.length

/-- An acknowledgement of nothing is accepted while the buffer is full and more is to come. -/
def Stalls (request : List UInt8) (c : Conn Outbox β) : Event → Prop
  | .timeout _ => False
  | .packet p _ => c.status = .waiting ∧ c.Acks p ∧ c.consumed p = 0 ∧ c.snd.canSend = room ∧
      c.snd.sentAll = false ∧ c.snd.out.bytesSent ≠ request.length

theorem Sender.At.of_acks (h : c.snd.At request base acked) {p : Store} (hacks : c.Acks p) :
    (c.acked (requestCallbacks recv) p).At request (base + c.synAck) (acked + (c.consumed p).toNat) := by
  have hle := hacks.consumed_le
  exact h.acknowledge (by omega) c.synAck

/-- The buffer stays in step with the request, at one place or another. -/
theorem step_at (h : c.snd.At request base acked) (e : Event) :
    ∃ base acked, (c.step (requestCallbacks recv) e).snd.At request base acked := by
  by_cases hwait : c.status = .waiting
  · cases e with
    | timeout sends =>
      rw [c.step_timeout _ sends hwait]
      exact ⟨base, acked, (c.timedOut_cases sends).1 ▸ h⟩
    | packet p sends =>
      rw [c.step_packet _ p sends hwait]
      rcases c.gotData_snd (requestCallbacks recv) p sends with ⟨hacks, hsnd⟩ | ⟨-, hsnd⟩
      · exact ⟨_, _, hsnd ▸ h.of_acks hacks⟩
      · exact ⟨base, acked, hsnd ▸ h⟩
  · rw [c.step_returned _ hwait e]
    exact ⟨base, acked, h⟩

/-- After a step `sent_all` is right, unless the step was one that stalls. -/
theorem told_step_iff (h : c.snd.At request base acked) (htold : Told request c) (e : Event) :
    Told request (c.step (requestCallbacks recv) e) ↔ ¬ Stalls request c e := by
  by_cases hwait : c.status = .waiting
  · cases e with
    | timeout sends =>
      refine iff_of_true ?_ (fun h => h)
      rw [c.step_timeout _ sends hwait, Told, (c.timedOut_cases sends).1]
      exact htold
    | packet p sends =>
      rw [c.step_packet _ p sends hwait, Told]
      rcases c.gotData_snd (requestCallbacks recv) p sends with ⟨hacks, hsnd⟩ | ⟨hacks, hsnd⟩
      · have hle := hacks.consumed_le
        have hnonneg := hacks.consumed_nonneg
        have hroom := h.canSend_le
        have hbytes := h.bytesSent_le
        rw [hsnd, Conn.acked, acknowledge_eq h]
        simp only [Stalls, hwait, hacks, true_and, Bool.or_eq_true, beq_iff_eq, Sender.refill]
        cases hall : c.snd.sentAll with
        | true =>
          have hlen := htold hall
          simp [hlen]
        | false =>
          simp only [Bool.false_eq_true, if_false, false_or, true_and]
          constructor
          · rintro hright ⟨hzero, hfull, hmore⟩
            omega
          · intro hno hnothing
            by_contra hmore
            exact hno ⟨by omega, by omega, by omega⟩
      · rw [hsnd]
        exact iff_of_true htold (fun h => hacks h.2.1)
  · rw [c.step_returned _ hwait e]
    refine iff_of_true htold ?_
    cases e with
    | timeout sends => exact fun h => h
    | packet p sends => exact fun h => hwait h.1

theorem start_at (isn : Nat) (buf : Store) (request : List UInt8) (user : β) (sends : Bool) :
    (Conn.start isn buf ⟨request, 0⟩ user sends).snd.At request isn 0 := by
  rw [Conn.start, Conn.sendData_snd]
  exact ⟨rfl, rfl, rfl, Nat.zero_le _, Nat.zero_le _, by simp [slice]⟩

/-- **The whole request is sent** in a run if and only if the run does not stall: then `sent_all` is
    set, in every state, only after `send_tcp_request` has handed out the whole request. -/
theorem sentAll_iff {β : Type} (recv : Nat → Store → Nat → β → Bool × β) (request : List UInt8)
    (isn : Nat) (buf : Store) (user : β) (sends : Bool) (es : List Event) :
    AllSteps (Conn.step (requestCallbacks recv))
        (fun c e => Told request (c.step (requestCallbacks recv) e))
        (Conn.start isn buf ⟨request, 0⟩ user sends) es ↔
      AllSteps (Conn.step (requestCallbacks recv)) (fun c e => ¬ Stalls request c e)
        (Conn.start isn buf ⟨request, 0⟩ user sends) es := by
  refine allSteps_iff (fun c => Told request c ∧ ∃ base acked, c.snd.At request base acked)
    ?_ ?_ ⟨?_, isn, 0, start_at ..⟩ es
  · rintro c e ⟨htold, base, acked, hat⟩
    exact told_step_iff hat htold e
  · rintro c e ⟨htold, base, acked, hat⟩ hstall
    exact ⟨(told_step_iff hat htold e).mpr hstall, step_at hat e⟩
  · rw [Told, Conn.start, Conn.sendData_snd]
    exact fun h => by cases h

end SentAll

/-- A frame with a TCP segment. -/
def segment (seq ack flags : Nat) (payload : List UInt8) : Store :=
  Store.splice
    (Store.splice (fun _ => 0) (14 + 2) (be16Bytes (40 + payload.length)))
    (14 + 20 + 4) (be32Bytes seq ++ be32Bytes ack ++ be16Bytes (5 <<< 12 + flags) ++
      [0, 0, 0, 0, 0, 0] ++ payload)

/-- Callbacks that take everything. -/
def takeAll : Nat → Store → Nat → Unit → Bool × Unit := fun _ _ _ _ => (true, ())

/-- A connection with a request of 98 bytes. -/
def longRequest : Conn Outbox Unit :=
  Conn.start 100 (fun _ => 0) ⟨List.replicate 98 65, 0⟩ () true

/-- The SYN of the server arrives twice, then it acknowledges the first 88 bytes. -/
def longRequestRun : Conn Outbox Unit :=
  [.packet (segment 500 101 (SYN ||| ACK) []) true, .packet (segment 500 101 (SYN ||| ACK) []) true,
    .packet (segment 501 189 ACK []) true].foldl (Conn.step (requestCallbacks takeAll)) longRequest

/-- `sent_all` is set and there is nothing to send, but ten bytes have never been handed out. -/
theorem longRequest_stalls :
    longRequestRun.snd.sentAll = true ∧ longRequestRun.snd.canSend = 0 ∧
      longRequestRun.snd.out.bytesSent = 88 ∧ longRequestRun.state = .established ∧
      ¬ Told (List.replicate 98 65) longRequestRun := by
  have hall : longRequestRun.snd.sentAll = true := by decide +kernel
  have hbytes : longRequestRun.snd.out.bytesSent = 88 := by decide +kernel
  refine ⟨hall, by decide +kernel, hbytes, by decide +kernel, fun h => ?_⟩
  cases h hall

end Tcp
