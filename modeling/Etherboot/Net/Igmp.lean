import Etherboot.Lib.Transition
import Etherboot.Net.AwaitReply
import Etherboot.Net.Random

set_option autoImplicit false

/-! # Membership queries (`process_igmp`)

A query is to have a report scheduled for the group that has been joined. `process_igmp` leaves packets of IGMP
alone, because its test of the protocol is the wrong way round. All others it takes as IGMP messages, at a
place inside the IP header: the type is the byte with the fragment flags, which `await_reply` has tested, so
that it is never the type of a message. The function does nothing at all, and a report is scheduled for a
query only if it has been before. -/

namespace Igmp

open Memory Net
open Misc (ticksPerSec)

def igmpInterval : Nat := 10 * ticksPerSec
def igmpv1RouterPresentTimeout : Nat := 400 * ticksPerSec

abbrev ipIgmp : UInt8 := 2
abbrev igmpQuery : UInt8 := 0x11
abbrev igmpv1Report : UInt8 := 0x12
abbrev igmpv2Report : UInt8 := 0x16
abbrev igmpLeave : UInt8 := 0x17

/-- `htonl(GROUP_ALL_HOSTS)` -/
def groupAllHosts : Nat := 0x010000e0

/-- The one slot of `igmptable`, `last_igmpv1`, and the messages sent so far, with their type and group. No
    group is 0, and so is the time of no report. -/
structure State where
  group : Nat
  time : Nat
  lastIgmpv1 : Nat
  sent : List (UInt8 × Nat)
  deriving DecidableEq, Repr

/-- A frame of `await_reply`, which comes at `now`. `taken` says that the reply function wants it, and `due`
    is `currticks() + rfc1112_sleep_interval(interval, 0)`. -/
structure Frame where
  b : Store
  packetlen : Nat
  http : Bool
  taken : Bool
  now : Nat
  due : Nat → Nat

inductive Event where
  | reports (now : Nat)
  | frame (f : Frame)
  | join (group now : Nat)
  | leave

/-- The response time of a query in ticks. -/
def interval (responseTime : UInt8) : Nat :=
  if responseTime = 0 then igmpInterval else responseTime.toNat * ticksPerSec / 10

namespace State

variable (s : State)

def sendIgmpReports (now : Nat) : State :=
  if s.time ≠ 0 ∧ s.time ≤ now then
    let type :=
      if s.lastIgmpv1 ≠ 0 ∧ now < s.lastIgmpv1 + igmpv1RouterPresentTimeout then igmpv1Report else igmpv2Report
    { s with sent := (type, s.group) :: s.sent, time := 0 }
  else s

/-- A query in `process_igmp`. -/
def query (f : Frame) (responseTime : UInt8) (group : Nat) : State :=
  let time := f.due (interval responseTime)
  { s with
    lastIgmpv1 := if responseTime = 0 then f.now else s.lastIgmpv1
    time := if (s.group = 0 ∨ s.group = group) ∧ time < s.time then time else s.time }

/-- `process_igmp`, with the IP header at `ip` and the message at `igmp`. -/
def processIgmp (f : Frame) (ip packetlen : Nat) (b : Store) : State :=
  let igmp := sizeofIphdr
  if b (ip + 9) = ipIgmp ∨ packetlen < sizeofIphdr + 8 then s
  else if ipchksum (b.slice igmp (wsub (be16 b (ip + 2)) (iplenBits (b ip)))) ≠ 0 then s
  else
    let s :=
      if b igmp = igmpQuery ∧ le32 b (ip + 16) = groupAllHosts then
        s.query f (b (igmp + 1)) (le32 b (igmp + 4))
      else s
    if (b igmp = igmpv1Report ∨ b igmp = igmpv2Report) ∧ le32 b (ip + 16) = le32 b (igmp + 4) then
      if s.group = le32 b (igmp + 4) then { s with time := 0 } else s
    else s

def leaveGroup : State :=
  { s with
    sent := if s.group ≠ 0 then (igmpLeave, s.group) :: s.sent else s.sent, group := 0, time := 0 }

def joinGroup (group now : Nat) : State :=
  if s.group = group then s
  else
    let s := if s.group ≠ 0 then s.leaveGroup else s
    if group &&& 0xf0 = 0xe0 then { s with group := group, time := now } else s

/-- `await_reply` on a frame. -/
def receive (f : Frame) : State :=
  let r := (awaitReplyFrame f.http f.packetlen).run f.b
  match r.1.1.bind Handed.ip with
  | some ip => if f.taken then s else s.processIgmp f ip r.1.2 r.2
  | none => s

def step : Event → State
  | .reports now => s.sendIgmpReports now
  | .frame f => s.receive f
  | .join group now => s.joinGroup group now
  | .leave => s.leaveGroup

end State

/-! ## What queries are to do -/

/-- The frame is a sound message of the type, for the group or for all. -/
structure Frame.Message (f : Frame) (type : UInt8) (group : Nat) : Prop where
  ip : IsIp f.packetlen f.b ∧ VersionOk f.b ∧ HeaderOk f.b
  fits : iplenOf f.b + 8 ≤ be16 f.b 16 ∧ 14 + be16 f.b 16 ≤ f.packetlen
  protocol : f.b 23 = ipIgmp
  dest : le32 f.b 30 = groupAllHosts ∨ le32 f.b 30 = group
  type : f.b (14 + iplenOf f.b) = type
  chksum : ipchksum (f.b.slice (14 + iplenOf f.b) (be16 f.b 16 - iplenOf f.b)) = 0
  group : le32 f.b (14 + iplenOf f.b + 4) = 0 ∨ le32 f.b (14 + iplenOf f.b + 4) = group

namespace State

/-- A report is scheduled, within the response time of the query. -/
def Scheduled (s : State) (f : Frame) : Prop :=
  s.time ≠ 0 ∧ s.time ≤ f.now + interval (f.b (14 + iplenOf f.b + 1))

/-- What may cancel a report: that it is sent or heard, or that the group is left. -/
def Cancels (s : State) : Event → Prop
  | .reports now => ∃ type, (s.sendIgmpReports now).sent = (type, s.group) :: s.sent
  | .frame f => f.Message igmpv1Report s.group ∨ f.Message igmpv2Report s.group
  | .join group _ => group ≠ s.group
  | .leave => True

/-- A query for the group that has been joined. -/
def Asked (s : State) (e : Event) (f : Frame) : Prop :=
  e = .frame f ∧ s.group ≠ 0 ∧ f.Message igmpQuery s.group

structure Good (s : State) (e : Event) : Prop where
  answered : ∀ f, s.Asked e f → (s.step e).Scheduled f
  cancelled : s.time ≠ 0 → (s.step e).time = 0 → s.Cancels e

/-- A report has been scheduled before the query. -/
def Condition (s : State) (e : Event) : Prop := ∀ f, s.Asked e f → s.Scheduled f

/-! ## What they do -/

variable {s : State}

/-- What stands in the place of the type is never the type of a message. -/
theorem processIgmp_eq {f : Frame} {ip packetlen : Nat} {b : Store} (h : be16 b 20 &&& 0x3FFF = 0) :
    s.processIgmp f ip packetlen b = s := by
  have hmod : be16 b 20 % 2 ^ 14 = 0 := (Nat.and_two_pow_sub_one_eq_mod _ 14).symm.trans h
  have hne : ∀ v : UInt8, v.toNat % 64 ≠ 0 → b 20 ≠ v := by
    rintro v hv rfl
    have hlow := (b (20 + 1)).toNat_lt
    unfold be16 at hmod
    omega
  unfold processIgmp
  simp only [hne igmpQuery (by decide), hne igmpv1Report (by decide), hne igmpv2Report (by decide),
    false_and, or_self, if_false, ite_self]

/-- The fragment bits of a frame that is handed on with an IP header. -/
theorem fragment_bits {f : Frame} {ip : Nat}
    (h : ((awaitReplyFrame f.http f.packetlen).run f.b).1.1.bind Handed.ip = some ip) :
    be16 ((awaitReplyFrame f.http f.packetlen).run f.b).2 20 &&& 0x3FFF = 0 := by
  by_cases hip : IsIp f.packetlen f.b
  · by_cases hok : VersionOk f.b ∧ HeaderOk f.b
    · rw [run_awaitReplyFrame f.http hip hok.1 hok.2 rfl rfl]
      have hkeep : ∀ i < 34, strippedStore (iplenOf f.b) f.packetlen f.b i = f.b i := by
        intro i hi
        rw [strippedStore]
        split
        · rfl
        · exact Store.splice_of_lt _ _ hi
      rw [be16_congr (fun k hk => hkeep _ (by omega))]
      exact hok.2.2.1
    · rw [run_awaitReplyFrame_dropped f.http hip hok] at h
      cases h
  · rw [run_awaitReplyFrame_not_ip f.http hip] at h
    split at h
    · cases h
    · cases h

theorem receive_eq (f : Frame) : s.receive f = s := by
  rw [receive]
  split
  · next ip hip =>
    split
    · rfl
    · exact processIgmp_eq (fragment_bits hip)
  · rfl

theorem good_iff (s : State) (e : Event) : s.Good e ↔ s.Condition e := by
  have hcancelled : s.time ≠ 0 → (s.step e).time = 0 → s.Cancels e := by
    intro hset hclear
    cases e with
    | reports now =>
      rw [step, sendIgmpReports] at hclear
      split at hclear
      · next hdue => exact ⟨_, congrArg State.sent (if_pos hdue)⟩
      · exact absurd hclear hset
    | frame f =>
      rw [step, receive_eq] at hclear
      exact absurd hclear hset
    | join group now =>
      rintro rfl
      rw [step, joinGroup, if_pos rfl] at hclear
      exact hset hclear
    | leave => trivial
  have hiff : ∀ f, s.Asked e f → ((s.step e).Scheduled f ↔ s.Scheduled f) := by
    rintro f ⟨rfl, -⟩
    rw [step, receive_eq]
  exact ⟨fun h f hf => (hiff f hf).mp (h.answered f hf),
    fun h => ⟨fun f hf => (hiff f hf).mpr (h f hf), hcancelled⟩⟩

/-- **Queries are answered**, in every step of a run, exactly if a report has been scheduled in time before each
    of them. -/
theorem queries_answered_iff (es : List Event) :
    AllSteps step Good ⟨0, 0, 0, []⟩ es ↔ AllSteps step Condition ⟨0, 0, 0, []⟩ es :=
  allSteps_iff (fun _ => True) (fun s e _ => good_iff s e) (fun _ _ _ _ => trivial) trivial es

/-- A query for all groups, to be answered in ten seconds. -/
def generalQuery : Frame where
  b i := [0, 0, 0, 0, 0, 0, 0, 0, 0, 0, 0, 0, 8, 0, 0x45, 0, 0, 28, 0, 0, 0, 0, 1, 2, 0xcf, 0xde, 10, 0, 0, 1,
    0xe0, 0, 0, 1, 0x11, 100, 0xee, 0x9b].getD i 0
  packetlen := 60
  http := false
  taken := false
  now := 200
  due t := 200 + t

/-- A group is joined, its first report is sent, and the query that follows has no effect. -/
theorem generalQuery_unanswered :
    ¬ AllSteps step Good ⟨0, 0, 0, []⟩ [.join 0x010101e0 100, .reports 101, .frame generalQuery] := by
  rintro ⟨-, -, hgood, -⟩
  have hquery : generalQuery.Message igmpQuery 0x010101e0 := by
    refine ⟨⟨by decide, by decide, by decide⟩, by decide, by decide, by decide, by decide, by decide, by decide⟩
  exact ((good_iff _ _).mp hgood generalQuery ⟨rfl, by decide, hquery⟩).1 (by decide)

end State

end Igmp
