import Etherboot.Http.Client
import Etherboot.Tcp.Delivery

set_option autoImplicit false

/-! # When a download is complete

`tcp_transaction` answers a FIN without a look at its sequence number, and `http` passes `eof` to
`fnc` without a look at what `tcp_transaction` returned. So `eof` says that all of the file has come
only in a run in which the FIN comes last, and nothing but the FIN ends a transaction that has begun to
deliver (`download_complete`). -/

namespace Tcp

/-- The server's FIN was accepted in `ESTABLISHED`, and `tcp_transaction` returned another value
    than 0. -/
def Conn.Completed {α β : Type} (c : Conn α β) : Prop :=
  c.finIn = some .established ∧ ∃ rc, c.status = .returned rc ∧ rc ≠ 0

theorem Conn.not_completed {α β : Type} {c : Conn α β} (h : c.finIn = none) : ¬ c.Completed := by
  intro hcompleted
  rw [hcompleted.1] at h
  cases h

section Sender

variable {β : Type} {recv : Nat → Store → Nat → β → Bool × β}

/-- When all of the request has been handed out and is acknowledged, nothing is left to send. -/
theorem acknowledge_all (s : Sender Outbox) (synAck : Nat)
    (h : s.sentAll = true ∨ s.out.bytesSent = s.out.sendBuffer.length) :
    (s.acknowledge (requestCallbacks recv) s.canSend synAck).canSend = 0 := by
  unfold Sender.acknowledge
  simp only [Nat.sub_self]
  split
  · rfl
  · next hall =>
    have hbytes := h.resolve_left hall
    rw [if_pos (by decide)]
    simp [requestCallbacks, sendTcpRequest, hbytes]

end Sender

section Turn

variable {α β : Type} {cb : Callbacks α β}

theorem Receiver.take_user (cb : Callbacks α β) (r : Receiver β) (p : Store) :
    ((r.take cb p).1 = true ∧ (r.take cb p).2.user = r.user) ∨
      ∃ len pos, (r.take cb p).1 = (cb.recv len p pos r.user).1 ∧
        (r.take cb p).2.user = (cb.recv len p pos r.user).2 := by
  unfold Receiver.take
  simp only
  split
  · exact .inr ⟨_, _, rfl, rfl⟩
  · exact .inl ⟨rfl, rfl⟩

theorem finishTurn_finIn (c : Conn α β) (p : Store) (sends : Bool) :
    (c.finishTurn p sends).finIn = c.finIn ∨
      (c.finishTurn p sends).finIn = some c.state ∧ (c.finishTurn p sends).status ≠ .waiting := by
  unfold Conn.finishTurn
  split
  · exact .inr ⟨rfl, nofun⟩
  · refine .inl ?_
    split
    · exact Conn.sendData_finIn ..
    · simp only
      split <;> split <;> simp

end Turn

end Tcp

namespace Http

open Tcp (FIN SYN RST ACK hasFlag)

/-! ## `recv_tcp_request` -/

section Recv

variable {fnc : List Call → Int} {p : Store}

/-- `fnc` takes every block but the last. -/
def Accepting (fnc : List Call → Int) : Prop :=
  ∀ calls call, call.eof = false → fnc (calls ++ [call]) ≠ 0

/-- What is done to the header and the data: `recv_tcp_request` goes on, passes on blocks without
    `eof`, and keeps the result code. -/
structure Reads (s : Inbox) (r : Bool × Inbox) : Prop where
  ok : r.1 = true
  calls : ∀ call ∈ r.2.calls, call ∈ s.calls ∨ call.eof = false
  rc : r.2.rc = s.rc
  recvState : r.2.recvState = s.recvState ∨ r.2.recvState = .data ∨ r.2.recvState = .moved

theorem Accepting.pass (h : Accepting fnc) (s : Inbox) : fnc (s.pass false).calls ≠ 0 := h _ _ rfl

theorem Reads.refl (s : Inbox) : Reads s (true, s) := ⟨rfl, fun _ => .inl, rfl, .inl rfl⟩

/-- A state before, from which a block may have been passed on, or the header may have ended. -/
theorem Reads.after {s s' : Inbox} {r : Bool × Inbox} (h : Reads s' r)
    (hcalls : ∀ call ∈ s'.calls, call ∈ s.calls ∨ call.eof = false) (hrc : s'.rc = s.rc)
    (hstate : s'.recvState = s.recvState ∨ s'.recvState = .data) : Reads s r := by
  refine ⟨h.ok, fun call hcall => ?_, h.rc.trans hrc, ?_⟩
  · rcases h.calls call hcall with hold | heof
    · exact hcalls call hold
    · exact .inr heof
  · rcases h.recvState with hs | hs | hs
    · rcases hstate with hs' | hs'
      · exact .inl (hs.trans hs')
      · exact .inr (.inl (hs.trans hs'))
    · exact .inr (.inl hs)
    · exact .inr (.inr hs)

theorem recvData_reads (hfnc : Accepting fnc) (fuel : Nat) :
    ∀ (buffer length : Nat) (s : Inbox), Reads s (recvData fnc p fuel buffer length s) := by
  induction fuel with
  | zero => exact fun _ _ s => .refl s
  | succ fuel ih =>
    intro buffer length s
    unfold recvData
    split
    · exact .refl s
    · simp only
      split
      · -- the block is full, and `fnc` takes it
        rw [if_neg (hfnc.pass _)]
        refine (ih _ _ _).after (fun call hcall => ?_) rfl (.inl rfl)
        rcases List.mem_append.mp hcall with hold | hnew
        · exact .inl hold
        · rw [List.mem_singleton.mp hnew]
          exact .inr rfl
      · exact (ih _ _ _).after (fun _ => .inl) rfl (.inl rfl)

theorem recvHeader_reads (hfnc : Accepting fnc) (fuel : Nat) :
    ∀ (buffer length : Nat) (s : Inbox), Reads s (recvHeader fnc p fuel buffer length s) := by
  induction fuel with
  | zero => exact fun _ _ s => .refl s
  | succ fuel ih =>
    intro buffer length s
    unfold recvHeader
    split
    · exact .refl s
    · split
      · exact ⟨rfl, fun _ => .inl, rfl, .inr (.inr rfl)⟩
      · simp only
        split
        · exact (recvData_reads hfnc _ _ _ _).after (fun _ => .inl) rfl (.inr rfl)
        · exact ih _ _ s

/-- The search for a result code fails, or the header is read with the code that was found. -/
theorem recvResultCode_reads (hfnc : Accepting fnc) (length : Nat) :
    ∀ (buffer : Nat) (s : Inbox),
      recvResultCode fnc p buffer length s = (false, { s with recvState := .error }) ∨
        ∃ rc, Reads { s with rc := rc, recvState := .header } (recvResultCode fnc p buffer length s) := by
  induction length with
  | zero => exact fun _ _ => .inl rfl
  | succ length ih =>
    intro buffer s
    unfold recvResultCode
    split
    · simp only
      split
      · exact .inl rfl
      · exact .inr ⟨_, recvHeader_reads hfnc _ _ _ _⟩
    · exact ih (buffer + 1) s

/-- What is known of the state of `recv_tcp_request`: `fnc` has not been called with `eof`, and the
    result code is not 200 before it has been read. -/
structure Inbox.Sound (s : Inbox) : Prop where
  calls : ∀ call ∈ s.calls, call.eof = false
  rc : s.recvState = .resultCode → s.rc ≠ 200

theorem Reads.sound {s : Inbox} {r : Bool × Inbox} (h : Reads s r)
    (hcalls : ∀ call ∈ s.calls, call.eof = false) (hstate : s.recvState ≠ .resultCode) :
    r.2.Sound := by
  refine ⟨fun call hcall => (h.calls call hcall).elim (hcalls call) id, fun hs => ?_⟩
  rcases h.recvState with hs' | hs' | hs'
  · exact absurd (hs'.symm.trans hs) hstate
  · rw [hs] at hs'; cases hs'
  · rw [hs] at hs'; cases hs'

/-- An answer with the result code 200 is read to its end. -/
theorem recvTcpRequest_sound (hfnc : Accepting fnc) {s : Inbox} (hs : s.Sound) (length buffer : Nat) :
    (recvTcpRequest fnc length p buffer s).2.Sound ∧
      ((recvTcpRequest fnc length p buffer s).2.rc = 200 →
        (recvTcpRequest fnc length p buffer s).1 = true) := by
  unfold recvTcpRequest
  split
  · next hstate =>
    rcases recvResultCode_reads (p := p) hfnc length buffer s with heq | ⟨rc, hreads⟩
    · rw [heq]
      exact ⟨⟨hs.calls, nofun⟩, fun hrc => absurd hrc (hs.rc hstate)⟩
    · exact ⟨hreads.sound hs.calls nofun, fun _ => hreads.ok⟩
  · next hstate =>
    have hreads := recvHeader_reads (p := p) hfnc length buffer length s
    exact ⟨hreads.sound hs.calls (by rw [hstate]; nofun), fun _ => hreads.ok⟩
  · next hstate =>
    have hreads := recvData_reads (p := p) hfnc length buffer length s
    exact ⟨hreads.sound hs.calls (by rw [hstate]; nofun), fun _ => hreads.ok⟩
  · exact ⟨hs, fun _ => rfl⟩
  · exact ⟨hs, fun _ => rfl⟩

end Recv

/-! ## A transaction -/

/-- A FIN that comes when nothing before it is missing, and nothing is left to send. -/
structure FinFits {β : Type} (c : Tcp.Conn Tcp.Outbox β) (p : Store) : Prop where
  flags : hasFlag p SYN = false ∧ hasFlag p RST = false
  noGap : 0 ≤ Serial.diff c.rcv.recvSeq (Tcp.seq p)
  acked : c.Acks p → c.consumed p = c.snd.canSend ∧
    (c.snd.sentAll = true ∨ c.snd.out.bytesSent = c.snd.out.sendBuffer.length)
  unacked : hasFlag p ACK = false → c.snd.canSend = 0

/-- The segment is answered; it is no RST once the result code is 200, and its FIN comes last. -/
structure Orderly (c : Conn) (p : Store) (sends : Bool) : Prop where
  sends : c.Heeds p → sends = true
  rst : c.Heeds p → hasFlag p RST = true → c.rcv.user.rc ≠ 200
  fin : c.Heeds p → hasFlag p FIN = true → FinFits c p

/-- A turn of a transaction with a server that has the bytes `stream` to send: its segment conforms to
    the stream and is orderly, and there is no timeout once the result code is 200. -/
def Proceeds (stream : List UInt8) (iss : Nat) (c : Conn) (e : Tcp.Event) : Prop :=
  Tcp.Conforming stream iss c e ∧
    match e with
    | .timeout _ => c.state = .established → c.rcv.user.rc ≠ 200
    | .packet p sends => Orderly c p sends

/-- What holds of a transaction all the time: with the result code 200 it is in `ESTABLISHED`, or it
    has completed, and then it has delivered the whole stream. -/
structure Sound (stream : List UInt8) (iss : Nat) (c : Conn) : Prop where
  inOrder : Tcp.InOrder stream iss c
  inbox : c.rcv.user.Sound
  noFin : c.status = .waiting → c.finIn = none
  loading : c.rcv.user.rc = 200 → c.status = .waiting ∧ c.state = .established ∨ c.Completed
  all : c.Completed → c.rcv.received = stream

section Transaction

variable {fnc : List Call → Int} {stream : List UInt8} {iss : Nat} {c : Conn} {p : Store}
  {sends : Bool}

open Tcp

theorem take_all {cb : Callbacks Outbox Inbox} {n : Nat} (h : c.rcv.Has stream iss n)
    (hlen : stream.length < 2 ^ 31) (hp : Conforms stream iss p) (hfin : hasFlag p FIN = true)
    (hfits : FinFits c p) : (c.rcv.take cb p).2.received = stream := by
  rcases hp with hrst | ⟨-, -, hno⟩ | ⟨off, hcovers⟩
  · rw [hfits.flags.2] at hrst
    cases hrst
  · cases hno.symm.trans hfin
  · have htake := h.take hlen hcovers hfits.flags.1 cb
    have hn := h.le
    have hoff := hcovers.off_le
    have hgap := hfits.noGap
    have hend := congrArg List.length (hcovers.fin hfin)
    rw [h.recvSeq, hcovers.seq, hfits.flags.1] at hgap
    simp only [Bool.false_eq_true, if_false] at hgap
    rw [Serial.diff_offset (iss + 1) (by omega) (by omega)] at hgap
    rw [List.length_drop] at hend
    have hreach : reach n off (off + (payload p).length) = stream.length := by
      unfold reach
      rw [if_pos (by omega)]
      omega
    rw [htake.received, hreach, List.take_length]

open Client

/-- When the FIN comes, nothing is left to send. -/
theorem taken_canSend {c' : Conn} (h : Conn.Taken (callbacks fnc) c p c')
    (hest : c'.state = .established) (hfits : FinFits c p) : c'.snd.canSend = 0 := by
  have hacked : c.Acks p → (c.acked (callbacks fnc) p).canSend = 0 := by
    intro hacks
    obtain ⟨hall, hsent⟩ := hfits.acked hacks
    rw [Conn.acked, hall]
    exact acknowledge_all c.snd _ hsent
  cases h with
  | closing _ => cases hest
  | opening _ hacks => exact hacked hacks
  | acked _ hacks _ => exact hacked hacks
  | plain hack _ => exact hfits.unacked hack

theorem take_sound (hfnc : Accepting fnc) (h : c.rcv.user.Sound) :
    (c.rcv.take (callbacks fnc) p).2.user.Sound ∧
      ((c.rcv.take (callbacks fnc) p).2.user.rc = 200 →
        (c.rcv.take (callbacks fnc) p).1 = true) := by
  rcases c.rcv.take_user (callbacks fnc) p with ⟨hok, huser⟩ | ⟨len, pos, hok, huser⟩
  · rw [huser]
    exact ⟨h, fun _ => hok⟩
  · rw [huser, hok]
    exact recvTcpRequest_sound hfnc h len pos

/-- A turn that changes neither the state of `recv_tcp_request` nor what was received, before the result
    code is 200. -/
theorem Sound.quiet {c' : Conn} (h : Sound stream iss c) (hinOrder : InOrder stream iss c')
    (huser : c'.rcv.user = c.rcv.user) (hrc : c.rcv.user.rc ≠ 200)
    (hfin : c'.finIn = none ∨ c'.finIn ≠ some .established ∧ c'.status ≠ .waiting) :
    Sound stream iss c' := by
  refine ⟨hinOrder, huser ▸ h.inbox, fun hw => hfin.resolve_right (fun hno => hno.2 hw),
    fun hrc' => absurd (huser ▸ hrc') hrc, fun hcompleted => ?_⟩
  rcases hfin with hnone | hno
  · exact absurd hcompleted (Conn.not_completed hnone)
  · exact absurd hcompleted.1 hno.1

theorem Sound.consumed (hfnc : Accepting fnc) {c' d : Conn} (h : Sound stream iss c)
    (hwait : c.status = .waiting) (hinOrder : InOrder stream iss c')
    (hc : d.rcv = c.rcv ∧ d.finIn = c.finIn ∧ d.status = c.status)
    (hall : hasFlag p FIN = true → d.snd.canSend = 0 ∧
      (c.rcv.take (callbacks fnc) p).2.received = stream)
    (hconsumed : Consumed (callbacks fnc) d p true c') : Sound stream iss c' := by
  obtain ⟨hrcv, hfinIn, hstatus⟩ := hc
  obtain ⟨hsound, hok⟩ := take_sound (p := p) hfnc h.inbox
  rw [← hrcv] at hsound hok hall
  have hnone : d.finIn = none := hfinIn.trans (h.noFin hwait)
  cases hconsumed with
  | declined hno =>
    have hsame : ({ d with rcv := (d.rcv.take (callbacks fnc) p).2 }.close true).rcv.user =
        (d.rcv.take (callbacks fnc) p).2.user := by rw [Conn.close_rcv]
    refine ⟨hinOrder, hsame ▸ hsound, fun _ => hnone, fun hrc => ?_,
      fun hcompleted => absurd hcompleted (Conn.not_completed hnone)⟩
    rw [hok hrc] at hno
    cases hno
  | finished d' _ hfin hsnd hrcv' hstate =>
    obtain ⟨hzero, hreceived⟩ := hall hfin
    refine ⟨hinOrder, hrcv' ▸ hsound, nofun, fun _ => .inr ⟨congrArg some hstate, 1, ?_, by decide⟩,
      fun _ => ?_⟩
    · simp [Conn.finish, hstate, hsnd, hzero]
    · show d'.rcv.received = stream
      rw [hrcv', hreceived]
  | goesOn _ _ _ hrcv' hstate hfinIn' hstatus' =>
    have hwaiting : c'.status = .waiting :=
      (hstatus'.resolve_right (fun hno => Bool.false_ne_true hno.1.symm)).trans (hstatus.trans hwait)
    exact ⟨hinOrder, hrcv' ▸ hsound, fun _ => hfinIn'.trans hnone, fun _ => .inl ⟨hwaiting, hstate⟩,
      fun hcompleted => absurd hcompleted (Conn.not_completed (hfinIn'.trans hnone))⟩

/-- With the result code 200 a transaction that waits is in `ESTABLISHED`. -/
theorem Sound.established (h : Sound stream iss c) (hwait : c.status = .waiting)
    (hrc : c.rcv.user.rc = 200) : c.state = .established := by
  rcases h.loading hrc with hopen | hcompleted
  · exact hopen.2
  · exact absurd hcompleted (Conn.not_completed (h.noFin hwait))

theorem gotData_sound (hfnc : Accepting fnc) (hlen : stream.length < 2 ^ 31)
    (h : Sound stream iss c) (hwait : c.status = .waiting)
    (hin : InOrder stream iss (c.gotData (callbacks fnc) p sends))
    (hp : Conforms stream iss p) (horderly : Orderly c p sends) :
    Sound stream iss (c.gotData (callbacks fnc) p sends) := by
  have hnone := h.noFin hwait
  rcases Conn.gotData_cases (callbacks fnc) c p sends with href | ⟨c', htaken, heq⟩
  · have huser := congrArg Receiver.user href.rcv
    by_cases hrc : c.rcv.user.rc = 200
    · -- an RST would end the transaction here
      have hest := h.established hwait hrc
      have hwait' : (c.gotData (callbacks fnc) p sends).status = .waiting := by
        rcases href.status with hsame | ⟨-, hrst, hacks⟩
        · exact hsame.trans hwait
        · refine absurd hrc (horderly.rst ?_ hrst)
          cases hack : hasFlag p ACK with
          | false => exact .inl ⟨hest, hack⟩
          | true => exact .inr ⟨.inl hest, hacks hack⟩
      exact ⟨hin, huser ▸ h.inbox, fun _ => href.finIn.trans hnone,
        fun _ => .inl ⟨hwait', href.state.trans hest⟩,
        fun hcompleted => absurd hcompleted (Conn.not_completed (href.finIn.trans hnone))⟩
    · exact h.quiet hin huser hrc (.inl (href.finIn.trans hnone))
  · rw [heq] at hin ⊢
    have hkept : c'.rcv = c.rcv ∧ c'.finIn = c.finIn ∧ c'.status = c.status := by
      cases htaken <;> exact ⟨rfl, rfl, rfl⟩
    by_cases hest : c'.state = .established
    · obtain ⟨hheeds, -, -⟩ := Taken.heeds htaken hest
      obtain ⟨n, hn⟩ := h.inOrder.opened (by unfold Conn.Heeds at hheeds; tauto)
      rw [horderly.sends hheeds] at hin ⊢
      refine h.consumed hfnc hwait hin hkept (fun hfin => ?_)
        (consumeData_cases (callbacks fnc) c' p true hest)
      have hfits := horderly.fin hheeds hfin
      exact ⟨taken_canSend htaken hest hfits, take_all hn hlen hp hfin hfits⟩
    · have hrc : c.rcv.user.rc ≠ 200 := by
        intro hrc
        have hs := h.established hwait hrc
        cases htaken with
        | closing hstate => rw [hs] at hstate; rcases hstate with hstate | hstate <;> cases hstate
        | opening _ _ => exact hest rfl
        | acked _ _ _ => exact hest hs
        | plain _ _ => exact hest hs
      rw [Conn.consumeData_of_ne _ c' p sends hest] at hin ⊢
      refine h.quiet hin ?_ hrc ?_
      · rcases finishTurn_rcv c' p sends with ⟨hrcv, -⟩ | ⟨-, -, hrcv, -⟩
        · rw [hrcv, hkept.1]
        · rw [hrcv, hkept.1]
      · rcases finishTurn_finIn c' p sends with hfin | ⟨hfin, hw⟩
        · exact .inl (hfin.trans (hkept.2.1.trans hnone))
        · exact .inr ⟨fun hs => hest (Option.some.inj (hfin.symm.trans hs)), hw⟩

theorem step_sound (hfnc : Accepting fnc) (hlen : stream.length < 2 ^ 31) {e : Tcp.Event}
    (h : Sound stream iss c) (hwait : c.status = .waiting) (he : Proceeds stream iss c e) :
    Sound stream iss (c.step (callbacks fnc) e) := by
  obtain ⟨hconforming, horderly⟩ := he
  have hin : Tcp.InOrder stream iss (c.step (callbacks fnc) e) :=
    Tcp.step_inOrder h.inOrder hlen hconforming
  cases e with
  | timeout sends =>
    rw [c.step_timeout _ sends hwait] at hin ⊢
    obtain ⟨-, hrcv, hfin, -, -⟩ := c.timedOut_cases sends
    exact h.quiet hin (congrArg Tcp.Receiver.user hrcv)
      (fun hrc => horderly (h.established hwait hrc) hrc) (.inl (hfin.trans (h.noFin hwait)))
  | packet p sends =>
    rw [c.step_packet _ p sends hwait] at hin ⊢
    exact gotData_sound hfnc hlen h hwait hin hconforming.1 horderly

theorem start_sound (isn : Nat) (buf : Store) (request : List UInt8) {inbox : Inbox}
    (hinbox : inbox.Sound) (hrc : inbox.rc ≠ 200) (sends : Bool) :
    Sound stream iss (Conn.start isn buf ⟨request, 0⟩ inbox sends) := by
  have hrcv : (Conn.start isn buf (⟨request, 0⟩ : Outbox) inbox sends).rcv.user = inbox := by
    rw [Conn.start, Conn.sendData_rcv]
  have hfin : (Conn.start isn buf (⟨request, 0⟩ : Outbox) inbox sends).finIn = none :=
    Conn.sendData_finIn ..
  exact ⟨start_inOrder .., hrcv.symm ▸ hinbox, fun _ => hfin, fun h => absurd (hrcv ▸ h) hrc,
    fun hcompleted => absurd hcompleted (Conn.not_completed hfin)⟩

end Transaction

/-! ## A download -/

/-- The calls of `fnc` so far. -/
def Client.calls (c : Client) : List Call :=
  match c.phase with
  | .connecting _ inbox => inbox.calls
  | .transacting conn => conn.rcv.user.calls
  | .returned _ inbox => inbox.calls

/-- The server of the `i`th transaction has the stream `(server i).1`, from the sequence number
    `(server i).2` on. A transaction that has completed has delivered its stream, and `eof` is passed
    to `fnc` only when the last transaction has completed. -/
structure Complete (server : Nat → List UInt8 × Nat) (c : Client) : Prop where
  bytes : ∀ i conn, c.done[i]? = some conn → conn.Completed → conn.rcv.received = (server i).1
  eof : ∀ call ∈ c.calls, call.eof = true → ∃ conn, c.done.getLast? = some conn ∧ conn.Completed

/-- The turns of all transactions proceed. -/
def Regular (server : Nat → List UInt8 × Nat) (c : Client) : Event → Prop
  | .connect _ _ _ => True
  | .tcp e => ∀ conn, c.phase = .transacting conn →
      Proceeds (server c.done.length).1 (server c.done.length).2 conn e

section Download

variable {fnc : List Call → Int} {server : Nat → List UInt8 × Nat} {c : Client}

/-- What is known between transactions, and in one. -/
def PhaseSound (server : Nat → List UInt8 × Nat) (i : Nat) : Phase → Prop
  | .connecting _ inbox => inbox.Sound ∧ inbox.rc ≠ 200
  | .transacting conn => Sound (server i).1 (server i).2 conn ∧ conn.status = .waiting
  | .returned _ _ => True

structure Inv (server : Nat → List UInt8 × Nat) (c : Client) : Prop where
  complete : Complete server c
  phase : PhaseSound server c.done.length c.phase

theorem bytes_append {done : List Conn} {conn : Conn}
    (hdone : ∀ i conn, done[i]? = some conn → conn.Completed → conn.rcv.received = (server i).1)
    (hconn : conn.Completed → conn.rcv.received = (server done.length).1) :
    ∀ i conn', (done ++ [conn])[i]? = some conn' → conn'.Completed → conn'.rcv.received = (server i).1 := by
  intro i conn' hi
  by_cases hlt : i < done.length
  · rw [List.getElem?_append_left hlt] at hi
    exact hdone i conn' hi
  · rw [List.getElem?_append_right (by omega)] at hi
    have hzero : i = done.length := by
      have := (List.getElem?_eq_some_iff.mp hi).1
      simp only [List.length_singleton] at this
      omega
    subst hzero
    simp only [Nat.sub_self, List.getElem?_cons_zero, Option.some.injEq] at hi
    rw [← hi]
    exact hconn

/-- The end of `http`: with the result code 200 the last transaction has completed. -/
theorem finish_inv {inbox : Inbox}
    (hdone : ∀ i conn, c.done[i]? = some conn → conn.Completed → conn.rcv.received = (server i).1)
    (hcalls : ∀ call ∈ inbox.calls, call.eof = false)
    (hlast : inbox.rc = 200 → ∃ conn, c.done.getLast? = some conn ∧ conn.Completed) :
    Inv server (c.finish fnc inbox) := by
  unfold Client.finish
  split
  · next hrc => exact ⟨⟨hdone, fun _ _ _ => hlast hrc⟩, trivial⟩
  · refine ⟨⟨hdone, fun call hcall heof => ?_⟩, trivial⟩
    rw [hcalls call hcall] at heof
    cases heof

theorem settle_inv {conn : Conn}
    (hdone : ∀ i conn, c.done[i]? = some conn → conn.Completed → conn.rcv.received = (server i).1)
    (h : Sound (server c.done.length).1 (server c.done.length).2 conn) :
    Inv server (c.settle fnc conn) := by
  have hcalls := h.inbox.calls
  have hnoEof : ∀ call ∈ conn.rcv.user.calls, ¬ call.eof = true := fun call hcall heof => by
    rw [hcalls call hcall] at heof
    cases heof
  unfold Client.settle
  split
  · next hwait =>
    exact ⟨⟨hdone, fun call hcall heof => absurd heof (hnoEof call hcall)⟩, h, hwait⟩
  · next hwait =>
    have hbytes := bytes_append hdone h.all
    unfold Client.next
    have hrc : (-1 : Int) ≠ 200 := by decide
    split
    · simp only
      split
      · exact finish_inv hbytes hcalls (fun h => absurd h hrc)
      · exact ⟨⟨hbytes, fun call hcall heof => absurd heof (hnoEof call hcall)⟩, ⟨hcalls, fun _ => hrc⟩, hrc⟩
    · refine finish_inv hbytes hcalls (fun hrc => ⟨conn, by simp, ?_⟩)
      exact (h.loading hrc).resolve_left (fun hno => hwait hno.1)

theorem step_inv (hfnc : Accepting fnc) (hlen : ∀ i, (server i).1.length < 2 ^ 31) {e : Event}
    (h : Inv server c) (he : Regular server c e) : Inv server (c.step fnc e) := by
  unfold Client.step
  split
  · next request inbox sendSeq buf sends hphase =>
    have hpre := h.phase
    rw [hphase] at hpre
    obtain ⟨hinbox, hrc⟩ := hpre
    exact settle_inv h.complete.bytes (start_sound sendSeq buf request hinbox hrc sends)
  · next conn e hphase =>
    have hpre := h.phase
    rw [hphase] at hpre
    obtain ⟨hsound, hwait⟩ := hpre
    exact settle_inv h.complete.bytes (step_sound hfnc (hlen _) hsound hwait (he conn hphase))
  · exact h

theorem start_inv (url : List UInt8) (destip : Nat) : Inv server (Client.start url destip) := by
  have hrc : (-1 : Int) ≠ 200 := by decide
  unfold Client.start
  split
  · exact ⟨⟨fun _ _ h => by simp at h, fun _ h => by simp [Client.calls] at h⟩,
      ⟨fun _ h => by simp at h, fun _ => hrc⟩, hrc⟩
  · exact ⟨⟨fun _ _ h => by simp at h, fun _ h => by simp [Client.calls] at h⟩, trivial⟩

end Download

/-- **Downloads are complete.** If `fnc` takes every block and all turns proceed, then after every step
    of `http` every transaction that has completed has delivered its stream, and `eof` has been passed
    to `fnc` only if the last transaction has completed. -/
theorem download_complete (fnc : List Call → Int) (hfnc : Accepting fnc)
    (server : Nat → List UInt8 × Nat) (hlen : ∀ i, (server i).1.length < 2 ^ 31) (url : List UInt8)
    (destip : Nat) (es : List Event)
    (hes : AllSteps (Client.step fnc) (Regular server) (Client.start url destip) es) :
    AllSteps (Client.step fnc) (fun c e => Complete server (c.step fnc e)) (Client.start url destip)
      es := by
  refine hes.of_inv (Inv server) (fun c e hc he => ?_) (start_inv url destip)
  have hstep : Inv server (c.step fnc e) := step_inv hfnc hlen hc he
  exact ⟨hstep.complete, hstep⟩

/-! ## A small file -/

/-- The answer of a server, with a file of four bytes. -/
def answer : List UInt8 := Text.bytes "HTTP/1.0 200 OK\r\n\r\nabcd"

def small : Nat → List UInt8 × Nat := fun _ => (answer, 500)

/-- The request is sent and acknowledged, and the answer comes but for its last two bytes. -/
def smallBegin : List Event :=
  [.connect 100 (fun _ => 0) true, .tcp (.packet (Tcp.segment 500 101 (SYN ||| ACK) []) true),
    .tcp (.packet (Tcp.segment 501 120 ACK (answer.take 21)) true)]

/-- The last two bytes, with the FIN. -/
def smallFin : Store := Tcp.segment 522 120 (FIN ||| ACK) (answer.drop 21)

/-- The FIN alone, behind the last two bytes. -/
def lateFin : Store := Tcp.segment 524 120 (FIN ||| ACK) []

def smallRun (es : List Event) : Client :=
  (smallBegin ++ es).foldl (Client.step (fun _ => 1)) (Client.start (Text.bytes "f") 1)

theorem smallRun_conn {conn : Conn} (h : (smallRun []).phase = .transacting conn) :
    conn.rcv.recvSeq = 522 ∧ conn.consumed smallFin = 0 ∧ conn.snd.canSend = 0 ∧
      conn.snd.sentAll = true := by
  have hfacts : (match (smallRun []).phase with
      | .transacting conn =>
        some (conn.rcv.recvSeq, conn.consumed smallFin, conn.snd.canSend, conn.snd.sentAll)
      | _ => none) = some (522, 0, 0, true) := by decide +kernel
  rw [h] at hfacts
  simpa using hfacts

theorem small_complete :
    AllSteps (Client.step (fun _ => 1)) (fun c e => Complete small (c.step (fun _ => 1) e))
        (Client.start (Text.bytes "f") 1) (smallBegin ++ [.tcp (.packet smallFin true)]) ∧
      (smallRun [.tcp (.packet smallFin true)]).calls = [⟨Text.bytes "abcd", 1, true⟩] := by
  have hsyn : Tcp.Conforms answer 500 (Tcp.segment 500 101 (SYN ||| ACK) []) :=
    .inr (.inr ⟨0, by decide +kernel⟩)
  have hdata : Tcp.Conforms answer 500 (Tcp.segment 501 120 ACK (answer.take 21)) :=
    .inr (.inr ⟨0, by decide +kernel⟩)
  have hfin : Tcp.Conforms answer 500 smallFin := .inr (.inr ⟨21, by decide +kernel⟩)
  have hflags : hasFlag smallFin SYN = false ∧ hasFlag smallFin RST = false := by decide +kernel
  refine ⟨download_complete _ (fun _ _ _ => by decide) small (fun _ => ?_) _ _ _
    ⟨trivial, fun conn _ => ⟨⟨hsyn, .of_nil ?_⟩, fun _ => rfl, fun _ h => ?_, fun _ h => ?_⟩,
      fun conn _ => ⟨⟨hdata, .of_flags ?_ ?_⟩, fun _ => rfl, fun _ h => ?_, fun _ h => ?_⟩,
      fun conn hconn => ⟨⟨hfin, .of_flags hflags.1 hflags.2⟩, fun _ => rfl, fun _ h => ?_, fun _ _ => ?_⟩,
      trivial⟩, by decide +kernel⟩
  · show answer.length < 2 ^ 31
    decide +kernel
  · decide +kernel
  · exact absurd h (by decide +kernel)
  · exact absurd h (by decide +kernel)
  · decide +kernel
  · decide +kernel
  · exact absurd h (by decide +kernel)
  · exact absurd h (by decide +kernel)
  · exact absurd h (by decide +kernel)
  · obtain ⟨hseq, hconsumed, hzero, hall⟩ := smallRun_conn hconn
    refine ⟨hflags, ?_, fun _ => ⟨by rw [hconsumed, hzero]; rfl, .inl hall⟩, fun _ => hzero⟩
    rw [hseq]
    decide +kernel

/-- The segment before the FIN is lost, and the transaction completes without it; or there is a timeout,
    and `eof` is passed though there was no FIN. -/
theorem small_truncated :
    Tcp.Conforms answer 500 lateFin ∧
      (smallRun [.tcp (.packet lateFin true)]).calls = [⟨Text.bytes "ab", 1, true⟩] ∧
      ¬ Complete small (smallRun [.tcp (.packet lateFin true)]) ∧
      (smallRun [.tcp (.timeout true), .tcp (.timeout true)]).calls = [⟨Text.bytes "ab", 1, true⟩] ∧
      ¬ Complete small (smallRun [.tcp (.timeout true), .tcp (.timeout true)]) := by
  have hcalls : (smallRun [.tcp (.timeout true), .tcp (.timeout true)]).calls =
      [⟨Text.bytes "ab", 1, true⟩] := by decide +kernel
  refine ⟨.inr (.inr ⟨23, by decide +kernel⟩), by decide +kernel, fun h => ?_, hcalls, fun h => ?_⟩
  · have hdone : (smallRun [.tcp (.packet lateFin true)]).done.map
        (fun conn => (conn.finIn, conn.status, conn.rcv.received)) =
        [(some .established, .returned 1, answer.take 21)] := by decide +kernel
    obtain ⟨conn, hconn, hfacts⟩ := List.map_eq_singleton_iff.mp hdone
    simp only [Prod.mk.injEq] at hfacts
    obtain ⟨hfin, hstatus, hreceived⟩ := hfacts
    have hall := h.bytes 0 conn (by rw [hconn]; rfl) ⟨hfin, 1, hstatus, by decide⟩
    rw [hreceived] at hall
    exact absurd hall (by decide +kernel)
  · have hdone : (smallRun [.tcp (.timeout true), .tcp (.timeout true)]).done.map
        (fun conn => conn.finIn) = [none] := by decide +kernel
    obtain ⟨conn, hconn, hfin⟩ := List.map_eq_singleton_iff.mp hdone
    obtain ⟨last, hlast, hcompleted⟩ := h.eof ⟨Text.bytes "ab", 1, true⟩ (by simp [hcalls]) rfl
    rw [hconn, List.getLast?_singleton, Option.some.injEq] at hlast
    rw [← hlast] at hcompleted
    exact Tcp.Conn.not_completed hfin hcompleted

end Http
