import Etherboot.Tcp.Request

set_option autoImplicit false

/-! # What a connection delivers

The server has a stream of bytes to send, which it numbers from its initial sequence number on; its
SYN takes the first number. It may cut the stream into segments as it likes, anew each time, and the
segments are lost, repeated and reordered on their way. What `tcp_transaction` passes to `recv` is a
beginning of the stream (`received_in_order`) as long as no data come with a SYN: `consume_data` takes
the number of the SYN for that of the first byte. -/

namespace Tcp

open Memory Conn

variable {α β : Type}

/-- The data of a segment. -/
def payload (p : Store) : List UInt8 := p.slice (14 + headerSize p) (payloadLen p).toNat

/-- The segment has the bytes of the stream from `off` on. A SYN stands before the first byte, a FIN
    behind the last. -/
@[mk_iff] structure Covers (stream : List UInt8) (iss : Nat) (p : Store) (off : Nat) : Prop where
  seq : seq p = (iss + (if hasFlag p SYN then 0 else 1) + off) % 2 ^ 32
  syn : hasFlag p SYN = true → off = 0
  off_le : off ≤ stream.length
  data : payload p <+: stream.drop off
  fin : hasFlag p FIN = true → payload p = stream.drop off

instance (stream : List UInt8) (iss : Nat) (p : Store) (off : Nat) :
    Decidable (Covers stream iss p off) := decidable_of_iff' _ (covers_iff ..)

/-- A segment that may come from a server with this stream: an RST, which may bring a text of its own,
    an acknowledgement alone, or a part of the stream. -/
def Conforms (stream : List UInt8) (iss : Nat) (p : Store) : Prop :=
  hasFlag p RST = true ∨
    (payload p = [] ∧ hasFlag p SYN = false ∧ hasFlag p FIN = false) ∨
    ∃ off, Covers stream iss p off

/-! ## What is taken of a segment -/

/-- What `consume_data` does with the data of a segment in `ESTABLISHED`: whether `recv` goes on, and
    the receiver. -/
def Receiver.take (cb : Callbacks α β) (r : Receiver β) (p : Store) : Bool × Receiver β :=
  let oldBytes := Serial.diff r.recvSeq (Tcp.seq p)
  if payloadLen p > 0 ∧ oldBytes ≥ 0 ∧ payloadLen p - oldBytes > 0 then
    let len := (payloadLen p - oldBytes).toNat
    let pos := 14 + headerSize p + oldBytes.toNat
    let (ok, user) := cb.recv len p pos r.user
    (ok, { recvSeq := (r.recvSeq + len) % 2 ^ 32, user := user, received := r.received ++ p.slice pos len })
  else (true, r)

/-- The ways in which `consume_data` leaves `ESTABLISHED` or stays there. -/
inductive Consumed (cb : Callbacks α β) (c : Conn α β) (p : Store) (sends : Bool) :
    Conn α β → Prop where
  | declined (ok : (c.rcv.take cb p).1 = false) :
      Consumed cb c p sends ({ c with rcv := (c.rcv.take cb p).2 }.close sends)
  | finished (d : Conn α β) (ok : (c.rcv.take cb p).1 = true) (fin : hasFlag p FIN = true)
      (snd : d.snd = c.snd) (rcv : d.rcv = (c.rcv.take cb p).2) (state : d.state = .established) :
      Consumed cb c p sends (d.finish sends)
  | goesOn (c' : Conn α β) (ok : (c.rcv.take cb p).1 = true) (fin : hasFlag p FIN = false)
      (rcv : c'.rcv = (c.rcv.take cb p).2) (state : c'.state = .established)
      (finIn : c'.finIn = c.finIn)
      (status : c'.status = c.status ∨ sends = false ∧ c'.status = .returned 0) :
      Consumed cb c p sends c'

theorem sendData_status (c : Conn α β) (sends : Bool) :
    (c.sendData sends).status = c.status ∨ sends = false ∧ (c.sendData sends).status = .returned 0 := by
  cases sends with
  | true => exact .inl rfl
  | false => exact .inr ⟨rfl, rfl⟩

theorem finishTurn_consumed {cb : Callbacks α β} {c d : Conn α β} {p : Store} {sends : Bool}
    (hok : (c.rcv.take cb p).1 = true) (hrcv : d.rcv = (c.rcv.take cb p).2) (hsnd : d.snd = c.snd)
    (hstate : d.state = .established) (hfinIn : d.finIn = c.finIn) (hstatus : d.status = c.status) :
    Consumed cb c p sends (d.finishTurn p sends) := by
  have hclosed : d.state ≠ .closed := by rw [hstate]; nofun
  unfold finishTurn
  by_cases hfin : hasFlag p FIN = true
  · rw [if_pos hfin]
    exact .finished d hok hfin hsnd hrcv hstate
  · rw [if_neg hfin]
    simp only [hclosed, false_and, if_false]
    refine .goesOn _ hok (by simpa using hfin) ?_ ?_ ?_ ?_
    · split <;> simp [hrcv]
    · split <;> simp [hstate]
    · split <;> simp [hfinIn]
    · split
      · rw [← hstatus]
        exact sendData_status ..
      · exact .inl hstatus

/-- **What a segment does in `ESTABLISHED`.** -/
theorem consumeData_cases (cb : Callbacks α β) (c : Conn α β) (p : Store) (sends : Bool)
    (h : c.state = .established) : Consumed cb c p sends (c.consumeData cb p sends) := by
  by_cases hnew : payloadLen p > 0 ∧ Serial.diff c.rcv.recvSeq (seq p) ≥ 0 ∧
      payloadLen p - Serial.diff c.rcv.recvSeq (seq p) > 0
  · have heq : c.consumeData cb p sends =
        if (c.rcv.take cb p).1 = false then { c with rcv := (c.rcv.take cb p).2 }.close sends
        else if hasFlag p FIN = false then
          { c with rcv := (c.rcv.take cb p).2 }.acknowledgeData sends
        else { c with rcv := (c.rcv.take cb p).2 }.finishTurn p sends := by
      rw [consumeData, if_pos ⟨hnew.1, h⟩, Receiver.take]
      simp only [hnew, and_self, if_true]
    rw [heq]
    cases hok : (c.rcv.take cb p).1 with
    | false => exact .declined hok
    | true =>
      by_cases hfin : hasFlag p FIN = false
      · rw [if_pos hfin]
        exact .goesOn _ hok hfin (acknowledgeData_rcv ..)
          ((acknowledgeData_state ..).trans h) (sendData_finIn ..) (sendData_status ..)
      · rw [if_neg hfin]
        exact finishTurn_consumed hok rfl rfl h rfl rfl
  · have htake : c.rcv.take cb p = (true, c.rcv) := if_neg hnew
    have hok : (c.rcv.take cb p).1 = true := by rw [htake]
    have hrcv : c.rcv = (c.rcv.take cb p).2 := by rw [htake]
    rw [consumeData]
    split
    · next hdata =>
      rw [if_neg (fun hold => hnew ⟨hdata.1, hold⟩)]
      exact finishTurn_consumed hok hrcv rfl h rfl rfl
    · exact finishTurn_consumed hok hrcv rfl h rfl rfl

/-- What a segment does elsewhere: only the SYN of the server changes the receiver. -/
theorem finishTurn_rcv (c : Conn α β) (p : Store) (sends : Bool) :
    ((c.finishTurn p sends).rcv = c.rcv ∧ (c.finishTurn p sends).state = c.state) ∨
      (c.state = .closed ∧ hasFlag p SYN = true ∧
        (c.finishTurn p sends).rcv = { c.rcv with recvSeq := (seq p + 1) % 2 ^ 32 } ∧
        (c.finishTurn p sends).state ≠ .closed) := by
  unfold finishTurn
  split
  · exact .inl ⟨rfl, rfl⟩
  · split
    · next hsyn => exact .inr ⟨hsyn.1, hsyn.2.1, by simp, by simp⟩
    · simp only
      by_cases hsyn : c.state = .closed ∧ hasFlag p SYN = true
      · rw [if_pos hsyn]
        refine .inr ⟨hsyn.1, hsyn.2, ?_, ?_⟩ <;> split <;> simp
      · rw [if_neg hsyn]
        refine .inl ⟨?_, ?_⟩ <;> split <;> simp

section Stream

variable {stream : List UInt8} {iss off : Nat} {p : Store} {r : Receiver β}

/-- How far the client is after a segment with the bytes from `off` to `stop`, if it was at `n`. -/
def reach (n off stop : Nat) : Nat := if off ≤ n then max n stop else n

/-- The client has the first `n` bytes of the stream. -/
structure Receiver.Has (stream : List UInt8) (iss n : Nat) (r : Receiver β) : Prop where
  le : n ≤ stream.length
  recvSeq : r.recvSeq = (iss + 1 + n) % 2 ^ 32
  received : r.received = stream.take n

/-- A part of the stream is taken as far as it is new, unless bytes before it are missing. -/
theorem Receiver.Has.take {n : Nat} (h : r.Has stream iss n) (hlen : stream.length < 2 ^ 31)
    (hcovers : Covers stream iss p off) (hsyn : hasFlag p SYN = false) (cb : Callbacks α β) :
    (r.take cb p).2.Has stream iss (reach n off (off + (payload p).length)) := by
  have hn := h.le
  have hoff := hcovers.off_le
  have hdiff : Serial.diff r.recvSeq (seq p) = (n : Int) - off := by
    rw [h.recvSeq, hcovers.seq, hsyn]
    exact Serial.diff_offset (iss + 1) (by omega) (by omega)
  have hk : (payloadLen p).toNat = (payload p).length := (Store.length_slice ..).symm
  have hend := hcovers.data.length_le
  have hdata := List.prefix_iff_eq_take.mp hcovers.data
  rw [List.length_drop] at hend
  unfold Receiver.take
  simp only [hdiff]
  split
  · next hnew =>
    -- the segment goes on from `n`, with what is behind the bytes that the client has
    have hreach : reach n off (off + (payload p).length) = n + (off + (payload p).length - n) := by
      unfold reach
      rw [if_pos (by omega)]
      omega
    have hlenNew : (payloadLen p - ((n : Int) - off)).toNat = off + (payload p).length - n := by omega
    have hpos : ((n : Int) - off).toNat = n - off := by omega
    have hnewData : p.slice (14 + headerSize p + (n - off)) (off + (payload p).length - n) =
        (stream.drop n).take (off + (payload p).length - n) := by
      have hdrop := Store.drop_slice p (14 + headerSize p) (payloadLen p).toNat (n - off)
      have hrest := congrArg (List.drop (n - off)) hdata
      rw [List.drop_take, List.drop_drop, show off + (n - off) = n by omega,
        show (payload p).length - (n - off) = off + (payload p).length - n by omega] at hrest
      rw [show (payloadLen p).toNat - (n - off) = off + (payload p).length - n by omega] at hdrop
      exact hdrop.symm.trans hrest
    rw [hreach, hlenNew, hpos, hnewData]
    refine ⟨by omega, ?_, ?_⟩
    · show (r.recvSeq + _) % 2 ^ 32 = _
      rw [h.recvSeq]
      omega
    · rw [h.received, List.take_add]
  · next hold =>
    have hreach : reach n off (off + (payload p).length) = n := by
      unfold reach
      split <;> omega
    rw [hreach]
    exact h

theorem Receiver.take_nil (cb : Callbacks α β) (r : Receiver β) (h : payloadLen p ≤ 0) :
    r.take cb p = (true, r) :=
  if_neg (by omega)

/-- Nothing is taken of a segment with a SYN that has at most one byte more than the client. -/
theorem Receiver.Has.take_syn {n : Nat} (h : r.Has stream iss n) (hcovers : Covers stream iss p off)
    (hsyn : hasFlag p SYN = true) (hle : payloadLen p ≤ n + 1) (hlen : stream.length < 2 ^ 31)
    (cb : Callbacks α β) : r.take cb p = (true, r) := by
  have hn := h.le
  have hseq := hcovers.seq
  rw [hsyn, hcovers.syn hsyn] at hseq
  refine if_neg (fun hnew => ?_)
  rw [h.recvSeq, hseq] at hnew
  unfold Serial.diff wsub at hnew
  simp only [if_true] at hnew
  omega

end Stream

/-! ## Runs -/

section Run

variable {stream : List UInt8} {iss : Nat} {p : Store} {cb : Callbacks α β} {c : Conn α β}

/-- What is received is a beginning of the stream, and `recv_seq` says how much of it. -/
structure InOrder (stream : List UInt8) (iss : Nat) (c : Conn α β) : Prop where
  received : c.rcv.received <+: stream
  closed : c.state = .closed → c.rcv.received = []
  opened : c.state = .synRcvd ∨ c.state = .established → ∃ n, c.rcv.Has stream iss n

/-- The connection is open for data, or the segment opens it, and its acknowledgement is accepted if it
    has one. -/
def Conn.Heeds (c : Conn α β) (p : Store) : Prop :=
  c.state = .established ∧ hasFlag p ACK = false ∨
    (c.state = .established ∨ c.state = .synRcvd) ∧ c.Acks p

/-- The data that are looked at do not come with a SYN, unless the client has them all but for one
    byte, and do not come with an RST in `SYN_RCVD`. -/
structure Clear (c : Conn α β) (p : Store) : Prop where
  syn : c.Heeds p → hasFlag p SYN = true → payloadLen p ≤ c.rcv.received.length + 1
  rst : c.Heeds p → c.state = .synRcvd → hasFlag p RST = true → payloadLen p ≤ 0

/-- A segment of the server, or a timeout. -/
def Conforming (stream : List UInt8) (iss : Nat) (c : Conn α β) : Event → Prop
  | .timeout _ => True
  | .packet p _ => Conforms stream iss p ∧ Clear c p

variable {n : Nat} {c' : Conn α β}

theorem Receiver.Has.length_received {r : Receiver β} (h : r.Has stream iss n) : r.received.length = n := by
  have := h.le
  rw [h.received, List.length_take]
  omega

theorem Receiver.Has.isBeginning {r : Receiver β} (h : r.Has stream iss n) : r.received <+: stream := by
  rw [h.received]
  exact List.take_prefix ..

/-- A segment that gets to its data in `ESTABLISHED` came when its data were looked at, and is an RST
    only if it opened the connection. -/
theorem Taken.heeds (h : Taken cb c p c') (hstate : c'.state = .established) :
    c.Heeds p ∧ c'.rcv = c.rcv ∧ (hasFlag p RST = true → c.state = .synRcvd) := by
  cases h with
  | closing _ => cases hstate
  | opening hs hacks => exact ⟨.inr ⟨.inr hs, hacks⟩, rfl, fun _ => hs⟩
  | acked hs hacks hrst =>
    exact ⟨.inr ⟨.inl hstate, hacks⟩, rfl, fun h => by rw [hrst] at h; cases h⟩
  | plain hack hrst => exact ⟨.inl ⟨hstate, hack⟩, rfl, fun h => by rw [hrst] at h; cases h⟩

theorem take_has (h : c.rcv.Has stream iss n) (hlen : stream.length < 2 ^ 31)
    (hp : Conforms stream iss p) (hclear : Clear c p) (hheeds : c.Heeds p)
    (hrst : hasFlag p RST = true → c.state = .synRcvd) :
    ∃ n, (c.rcv.take cb p).2.Has stream iss n := by
  rcases hp with hr | ⟨hnil, -, -⟩ | ⟨off, hcovers⟩
  · rw [c.rcv.take_nil cb (hclear.rst hheeds (hrst hr) hr)]
    exact ⟨n, h⟩
  · have hzero : (payloadLen p).toNat = 0 := by
      rw [← Store.length_slice p (14 + headerSize p) (payloadLen p).toNat]
      exact congrArg List.length hnil
    rw [c.rcv.take_nil cb (by omega)]
    exact ⟨n, h⟩
  · cases hsyn : hasFlag p SYN with
    | false => exact ⟨_, h.take hlen hcovers hsyn cb⟩
    | true =>
      have hle := hclear.syn hheeds hsyn
      rw [h.length_received] at hle
      rw [h.take_syn hcovers hsyn hle hlen cb]
      exact ⟨n, h⟩

theorem InOrder.of_has (h : c.rcv.Has stream iss n) (hstate : c.state ≠ .closed) : InOrder stream iss c :=
  ⟨h.isBeginning, fun hclosed => absurd hclosed hstate, fun _ => ⟨n, h⟩⟩

theorem InOrder.congr (h : InOrder stream iss c) (hrcv : c'.rcv = c.rcv)
    (hstate : c'.state = c.state) : InOrder stream iss c' :=
  ⟨hrcv ▸ h.received, fun hs => hrcv ▸ h.closed (hstate ▸ hs), fun hs => hrcv ▸ h.opened (hstate ▸ hs)⟩

theorem InOrder.closing (h : InOrder stream iss c) (hrcv : c'.rcv = c.rcv)
    (hstate : c'.state = .finWait1 ∨ c'.state = .finWait2) : InOrder stream iss c' := by
  refine ⟨hrcv ▸ h.received, fun hs => ?_, fun hs => ?_⟩
  · rw [hs] at hstate
    rcases hstate with hstate | hstate <;> cases hstate
  · rcases hs with hs | hs <;> rw [hs] at hstate <;> rcases hstate with hstate | hstate <;> cases hstate

/-- In `ESTABLISHED` the client stays in order, wherever the segment leads. -/
theorem consumed_inOrder {sends : Bool}
    (h : (c.rcv.take cb p).2.Has stream iss n) (hconsumed : Consumed cb c p sends c') :
    InOrder stream iss c' := by
  cases hconsumed with
  | declined _ => exact .of_has (n := n) (by rw [close_rcv]; exact h) (by rw [close_state]; nofun)
  | finished d _ _ _ hrcv hstate =>
    exact .of_has (c := d.finish sends) (n := n) (show d.rcv.Has _ _ _ from hrcv ▸ h)
      (show d.state ≠ _ by rw [hstate]; nofun)
  | goesOn _ _ _ hrcv hstate => exact .of_has (n := n) (hrcv ▸ h) (by rw [hstate]; nofun)

theorem opened_inOrder (hp : Conforms stream iss p) (hsyn : hasFlag p SYN = true)
    (hrst : hasFlag p RST = false) (hempty : c.rcv.received = []) :
    Receiver.Has stream iss 0 { c.rcv with recvSeq := (seq p + 1) % 2 ^ 32 } := by
  rcases hp with hr | ⟨-, hno, -⟩ | ⟨off, hcovers⟩
  · cases hr.symm.trans hrst
  · cases hno.symm.trans hsyn
  · have hseq := hcovers.seq
    rw [hsyn, hcovers.syn hsyn] at hseq
    refine ⟨Nat.zero_le _, ?_, hempty⟩
    rw [hseq]
    simp

theorem gotData_inOrder (h : InOrder stream iss c) (hlen : stream.length < 2 ^ 31)
    (hp : Conforms stream iss p) (hclear : Clear c p) (sends : Bool) :
    InOrder stream iss (c.gotData cb p sends) := by
  rcases gotData_cases cb c p sends with href | ⟨c', htaken, heq⟩
  · exact h.congr href.rcv href.state
  · rw [heq]
    by_cases hest : c'.state = .established
    · obtain ⟨hheeds, hrcv, hrst⟩ := Taken.heeds htaken hest
      obtain ⟨n, hn⟩ := h.opened (by unfold Heeds at hheeds; tauto)
      have htake : ∃ n, (c.rcv.take cb p).2.Has stream iss n := take_has hn hlen hp hclear hheeds hrst
      obtain ⟨n', hn'⟩ := htake
      rw [← hrcv] at hn'
      exact consumed_inOrder hn' (consumeData_cases cb c' p sends hest)
    · have hkept : c'.rcv = c.rcv ∧ (c'.state = c.state ∧ hasFlag p RST = false ∨ c'.state = .finWait2) := by
        cases htaken with
        | closing _ => exact ⟨rfl, .inr rfl⟩
        | opening _ _ => exact absurd rfl hest
        | acked _ _ hrst => exact ⟨rfl, .inl ⟨rfl, hrst⟩⟩
        | plain _ hrst => exact ⟨rfl, .inl ⟨rfl, hrst⟩⟩
      rw [consumeData_of_ne cb c' p sends hest]
      obtain ⟨hrcv, hstate⟩ := hkept
      rcases finishTurn_rcv c' p sends with ⟨hr, hs⟩ | ⟨hs, hsyn, hr, hs'⟩
      · rw [hrcv] at hr
        rcases hstate with ⟨hsame, -⟩ | hfin
        · exact h.congr hr (hs.trans hsame)
        · exact h.closing hr (.inr (hs.trans hfin))
      · rcases hstate with ⟨hsame, hrst⟩ | hfin
        · refine .of_has (n := 0) ?_ hs'
          rw [hr, hrcv]
          exact opened_inOrder hp hsyn hrst (h.closed (hsame ▸ hs))
        · cases hfin.symm.trans hs

theorem step_inOrder (h : InOrder stream iss c) (hlen : stream.length < 2 ^ 31) {e : Event}
    (he : Conforming stream iss c e) : InOrder stream iss (c.step cb e) := by
  by_cases hwait : c.status = .waiting
  · cases e with
    | timeout sends =>
      obtain ⟨-, hrcv, -, -, hstate⟩ := c.timedOut_cases sends
      rw [c.step_timeout cb sends hwait]
      split at hstate
      · exact h.closing hrcv (.inl hstate)
      · exact h.congr hrcv hstate
    | packet p sends =>
      rw [c.step_packet cb p sends hwait]
      exact gotData_inOrder h hlen he.1 he.2 sends
  · rw [c.step_returned cb hwait e]
    exact h

theorem start_inOrder (isn : Nat) (buf : Store) (out : α) (user : β) (sends : Bool) :
    InOrder stream iss (start isn buf out user sends) := by
  have hrcv : (start isn buf out user sends).rcv = ⟨0, user, []⟩ := sendData_rcv ..
  have hstate : (start isn buf out user sends).state = .closed := sendData_state ..
  refine ⟨?_, fun _ => ?_, fun hs => ?_⟩
  · rw [hrcv]
    exact List.nil_prefix
  · rw [hrcv]
  · rw [hstate] at hs
    rcases hs with hs | hs <;> cases hs

end Run

/-- **Bytes are received in order.** In every run on segments that conform to a stream and are clear,
    what `recv` has been given after every step is a beginning of the stream. -/
theorem received_in_order (cb : Callbacks α β) (stream : List UInt8) (hlen : stream.length < 2 ^ 31)
    (iss isn : Nat) (buf : Store) (out : α) (user : β) (sends : Bool) (es : List Event)
    (hes : AllSteps (Conn.step cb) (Conforming stream iss) (Conn.start isn buf out user sends) es) :
    AllSteps (Conn.step cb) (fun c e => (c.step cb e).rcv.received <+: stream)
      (Conn.start isn buf out user sends) es := by
  refine hes.of_inv (InOrder stream iss) (fun c e hc he => ?_) (start_inOrder ..)
  have hstep : InOrder stream iss (c.step cb e) := step_inOrder hc hlen he
  exact ⟨hstep.received, hstep⟩

theorem Clear.of_nil {c : Conn α β} {p : Store} (h : payloadLen p ≤ 0) : Clear c p :=
  ⟨fun _ _ => by omega, fun _ _ _ => h⟩

theorem Clear.of_flags {c : Conn α β} {p : Store} (hsyn : hasFlag p SYN = false)
    (hrst : hasFlag p RST = false) : Clear c p :=
  ⟨fun _ h => by simp [hsyn] at h, fun _ _ h => by simp [hrst] at h⟩

/-- The stream of a small server. -/
def hello : List UInt8 := [72, 69, 76, 76, 79]

/-- Its SYN, its last three bytes before the others, and a segment that overlaps with both. -/
def helloEvents : List Event :=
  [.packet (segment 500 101 (SYN ||| ACK) []) true, .packet (segment 503 101 ACK [76, 76, 79]) true,
    .packet (segment 501 101 ACK [72, 69, 76]) true, .packet (segment 503 101 ACK [76, 76, 79]) true]

theorem hello_in_order :
    AllSteps (Conn.step (requestCallbacks takeAll))
        (fun c e => (c.step (requestCallbacks takeAll) e).rcv.received <+: hello) longRequest
        helloEvents ∧
      (helloEvents.foldl (Conn.step (requestCallbacks takeAll)) longRequest).rcv.received = hello := by
  refine ⟨received_in_order _ hello (by decide) 500 100 _ _ _ _ _ ⟨⟨?_, .of_nil (by decide +kernel)⟩,
    ⟨?_, .of_flags (by decide +kernel) (by decide +kernel)⟩,
    ⟨?_, .of_flags (by decide +kernel) (by decide +kernel)⟩,
    ⟨?_, .of_flags (by decide +kernel) (by decide +kernel)⟩, trivial⟩, by decide +kernel⟩
  · exact .inr (.inr ⟨0, by decide +kernel⟩)
  · exact .inr (.inr ⟨2, by decide +kernel⟩)
  · exact .inr (.inr ⟨0, by decide +kernel⟩)
  · exact .inr (.inr ⟨2, by decide +kernel⟩)

/-- The server sends its stream with its SYN, and the segment is repeated. -/
def helloSynRun : Conn Outbox Unit :=
  [.packet (segment 500 101 (SYN ||| ACK) hello) true,
    .packet (segment 500 101 (SYN ||| ACK) hello) true].foldl (Conn.step (requestCallbacks takeAll))
    longRequest

/-- The first byte is skipped. -/
theorem helloSyn_skips :
    Conforms hello 500 (segment 500 101 (SYN ||| ACK) hello) ∧
      helloSynRun.rcv.received = [69, 76, 76, 79] ∧ ¬ helloSynRun.rcv.received <+: hello := by
  refine ⟨.inr (.inr ⟨0, ?_⟩), ?_, ?_⟩ <;> decide +kernel

end Tcp
