import Etherboot.Lib.Transition
import Etherboot.Net.Random
import Mathlib.Tactic.Ring

set_option autoImplicit false

/-! # Link aggregation (`core/proto_eth_slow.c`)

The client takes part in LACP with one state: the last PDU it has sent or is about to send, with what it says
of itself (the actor) and what it knows of the other side (the partner), and two timers. `current_while_timer`
is when what is known of the partner expires; `periodic_timer` is when the partner is due a report. A timer
that is 0 is stopped. `send_lacp_reports` is called all the time, `process_eth_slow` for every frame.

Times are the ticks of the machine, in 32 bits. -/

namespace Lacp

open Misc (ticksPerSec)

/-! ## Data units -/

/-- The flags of `state`. -/
def activity : BitVec 8 := 1 <<< 0
def timeout : BitVec 8 := 1 <<< 1
def aggregation : BitVec 8 := 1 <<< 2
def synchronization : BitVec 8 := 1 <<< 3
def collecting : BitVec 8 := 1 <<< 4
def distributing : BitVec 8 := 1 <<< 5
def defaulted : BitVec 8 := 1 <<< 6
def expired : BitVec 8 := 1 <<< 7

/-- `state & flag` -/
def Flag (state flag : BitVec 8) : Prop := state &&& flag ≠ 0
  deriving Decidable

/-- `struct lacp_info`, with the numbers in the byte order of the machine. -/
structure LacpInfo where
  systemPriority : UInt16
  system : BitVec 48
  key : UInt16
  portPriority : UInt16
  port : UInt16
  state : BitVec 8
  deriving DecidableEq, Repr

/-- `memcmp(a, b, LACP_CMP_LEN) == 0`: all but the state. -/
def LacpInfo.Same (a b : LacpInfo) : Prop := a = { b with state := a.state }
  deriving Decidable

/-- `struct slow_lacp`. What is reserved is left out. -/
structure SlowLacp where
  subtype : UInt8
  versionNumber : UInt8
  tlvTypeActorInfo : UInt8
  actorInformationLength : UInt8
  actor : LacpInfo
  tlvTypePartnerInfo : UInt8
  partnerInformationLength : UInt8
  partner : LacpInfo
  tlvTypeCollectorInfo : UInt8
  collectorInformationLength : UInt8
  collectorMaxDelay : UInt16
  tlvTypeTerminator : UInt8
  terminatorLength : UInt8
  deriving DecidableEq, Repr

/-- `struct slow_marker`. What is reserved is left out. -/
structure SlowMarker where
  versionNumber : UInt8
  tlvType : UInt8
  markerLength : UInt8
  requesterPort : UInt16
  requesterSystem : BitVec 48
  requesterTransactionId : UInt32
  deriving DecidableEq, Repr

/-- `union slow_union`: a data unit of LACP, a marker, or something else. -/
inductive SlowPacket where
  | lacp (pkt : SlowLacp)
  | marker (pkt : SlowMarker)
  | other
  deriving DecidableEq, Repr

/-! ## The state -/

def fastPeriodicTime : UInt32 := 1 * UInt32.ofNat ticksPerSec
def slowPeriodicTime : UInt32 := 30 * UInt32.ofNat ticksPerSec
def shortTimeoutTime : UInt32 := 3 * fastPeriodicTime
def longTimeoutTime : UInt32 := 3 * slowPeriodicTime

/-- `struct lacp_state`. `sent` is what the last call has transmitted. Not in the source: `started`, the time
    at which the periodic timer was last started. -/
structure LacpState where
  pkt : SlowLacp
  currentWhileTimer : UInt32
  periodicTimer : UInt32
  sent : Option SlowPacket
  started : UInt32
  deriving DecidableEq, Repr

def zeroInfo : LacpInfo := ⟨0, 0, 0, 0, 0, 0⟩

/-- The static variable `lacp`, before anything has been done. -/
def LacpState.zero : LacpState := ⟨⟨0, 0, 0, 0, zeroInfo, 0, 0, zeroInfo, 0, 0, 0, 0, 0⟩, 0, 0, none, 0⟩

namespace LacpState

variable (s : LacpState) (mac : BitVec 48) (now : UInt32) (pkt : SlowLacp)

/-- `lacp_init_state` -/
def init : LacpState where
  pkt :=
    { subtype := 1
      versionNumber := 1
      tlvTypeActorInfo := 1
      actorInformationLength := 0x14
      actor := ⟨1, mac, 1, 1, 1, synchronization ||| collecting ||| distributing ||| defaulted⟩
      tlvTypePartnerInfo := 2
      partnerInformationLength := 0x14
      partner := ⟨1, 0, 1, 1, 1,
        activity ||| synchronization ||| collecting ||| distributing ||| defaulted⟩
      tlvTypeCollectorInfo := 3
      collectorInformationLength := 0x10
      collectorMaxDelay := 0x8000
      tlvTypeTerminator := 0
      terminatorLength := 0 }
  currentWhileTimer := 0
  periodicTimer := 0
  sent := none
  started := 0

/-- The state is made anew for another network card. -/
def forNode : LacpState :=
  if mac ≠ s.pkt.actor.system then init mac else s

def setActorState (state : BitVec 8) : LacpState :=
  { s with pkt := { s.pkt with actor := { s.pkt.actor with state := state } } }

def setPartnerState (state : BitVec 8) : LacpState :=
  { s with pkt := { s.pkt with partner := { s.pkt.partner with state := state } } }

def nttMask : BitVec 8 := activity ||| timeout ||| synchronization ||| aggregation

/-- `lacp_update_ntt`: the partner has a wrong idea of this side. -/
def updateNtt : Bool :=
  decide (¬ pkt.partner.Same s.pkt.actor ∨ pkt.partner.state &&& nttMask ≠ s.pkt.actor.state &&& nttMask)

/-- The state of the partner as it is recorded. -/
def recordedState : BitVec 8 :=
  let state := pkt.actor.state &&& ~~~synchronization
  let state :=
    if pkt.partner.Same s.pkt.actor ∧
        pkt.partner.state &&& aggregation = s.pkt.actor.state &&& aggregation then
      state ||| synchronization
    else state
  if ¬ Flag pkt.actor.state aggregation then state ||| synchronization else state

/-- `lacp_record_pdu` -/
def recordPdu : LacpState :=
  let s := s.setActorState (s.pkt.actor.state &&& ~~~defaulted)
  { s with pkt := { s.pkt with partner := { pkt.actor with state := s.recordedState pkt } } }

/-- `lacp_timer_expired` -/
def timerExpired (now deadline : UInt32) : Prop := deadline ≠ 0 ∧ now > deadline
  deriving Decidable

/-- One of the two sides is active. -/
def Active : Prop := Flag s.pkt.partner.state activity ∨ Flag s.pkt.actor.state activity
  deriving Decidable

/-- How long the partner can wait for a report. -/
def period : UInt32 :=
  if Flag s.pkt.partner.state timeout then fastPeriodicTime else slowPeriodicTime

/-- `lacp_start_periodic_timer` -/
def startPeriodicTimer : LacpState :=
  if s.Active then { s with periodicTimer := now + s.period, started := now } else s

/-- `lacp_start_current_while_timer` -/
def startCurrentWhileTimer : LacpState :=
  let s := { s with
    currentWhileTimer :=
      now + if Flag s.pkt.actor.state timeout then shortTimeoutTime else longTimeoutTime }
  s.setActorState (s.pkt.actor.state &&& ~~~expired)

/-- The information on the partner has expired for the first time. -/
def expire : LacpState :=
  let s := s.setPartnerState (s.pkt.partner.state &&& ~~~synchronization ||| timeout)
  let s := s.setActorState (s.pkt.actor.state ||| expired)
  { s with currentWhileTimer := now + shortTimeoutTime }

/-- The report goes out, and the periodic timer is started again. -/
def transmit : LacpState :=
  { s.startPeriodicTimer now with sent := some (.lacp s.pkt) }

/-- The first half of `send_lacp_reports`: the information on the partner expires. -/
def checkCurrent (ntt : Bool) : LacpState × Bool :=
  if timerExpired now s.currentWhileTimer then
    if ¬ Flag s.pkt.actor.state expired then (s.expire now, true) else (init mac, ntt)
  else (s, ntt)

/-- `send_lacp_reports` -/
def sendLacpReports (ntt : Bool) : LacpState :=
  let r := { s.forNode mac with sent := none }.checkCurrent mac now ntt
  if r.2 ∨ timerExpired now r.1.periodicTimer then r.1.transmit now else r.1

/-- The part of `process_eth_slow` for a LACP data unit. -/
def processLacp : LacpState :=
  let s := s.forNode mac
  ((s.recordPdu pkt).startCurrentWhileTimer now).sendLacpReports mac now (s.updateNtt pkt)

/-- `process_eth_slow`, for a frame with `packetlen` bytes. -/
def processEthSlow (ptype : UInt16) (packetlen : Nat)
    (pkt : SlowPacket) : LacpState :=
  let s := { s with sent := none }
  if ptype ≠ 0x8809 ∨ packetlen < 14 + 1 then s
  else
    match pkt with
    | .lacp pkt => if pkt.subtype = 1 ∧ packetlen ≥ 14 + 110 then s.processLacp mac now pkt else s
    | .marker pkt =>
      if packetlen ≥ 14 + 110 ∧ pkt.tlvType = 1 ∧ pkt.markerLength = 0x16 then
        { s with sent := some (.marker { pkt with tlvType := 2 }) }
      else s
    | .other => s

end LacpState

/-- `await_reply` calls `send_eth_slow_reports` in every round, and `process_eth_slow` for every frame. The
    address is that of the network card in use. -/
inductive Event where
  | reports (mac : BitVec 48) (now : UInt32)
  | frame (mac : BitVec 48) (now : UInt32) (ptype : UInt16) (packetlen : Nat) (pkt : SlowPacket)
  deriving DecidableEq, Repr

def LacpState.step (s : LacpState) : Event → LacpState
  | .reports mac now => s.sendLacpReports mac now false
  | .frame mac now ptype packetlen pkt => s.processEthSlow mac now ptype packetlen pkt

end Lacp
