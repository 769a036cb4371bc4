import Etherboot.Lacp.Machine

set_option autoImplicit false

/-! # The partner gets its reports

While something is known of the partner and one side is active, the periodic timer has to run, and a call of
`send_lacp_reports` that finds it expired sends a report. The timer is started only when a report is sent. So
it does not run after a data unit that makes the partner active and agrees with what this side says of itself,
for which no report is sent, unless it has been running before. Nor does it run if the time that it is set to
happens to be 0. -/

namespace Lacp

/-! ## Flags -/

theorem flag_defaulted_cleared : ∀ x : BitVec 8, ¬ Flag (x &&& ~~~defaulted) defaulted := by decide

theorem flag_of_defaulted : ∀ x : BitVec 8,
    (Flag (x &&& ~~~defaulted) activity ↔ Flag x activity) ∧
      (Flag (x &&& ~~~defaulted) timeout ↔ Flag x timeout) := by
  decide

theorem flag_expired_cleared : ∀ x : BitVec 8, ¬ Flag (x &&& ~~~expired) expired := by decide

theorem flag_of_expired : ∀ x : BitVec 8,
    (Flag (x &&& ~~~expired) activity ↔ Flag x activity) ∧
      (Flag (x &&& ~~~expired) defaulted ↔ Flag x defaulted) := by
  decide

theorem flag_of_expire : ∀ x : BitVec 8,
    (Flag (x ||| expired) activity ↔ Flag x activity) ∧
      (Flag (x ||| expired) defaulted ↔ Flag x defaulted) := by
  decide

theorem flag_of_partner_expire : ∀ x : BitVec 8,
    (Flag (x &&& ~~~synchronization ||| timeout) activity ↔ Flag x activity) ∧
      Flag (x &&& ~~~synchronization ||| timeout) timeout := by
  decide

theorem flag_of_synchronization : ∀ x : BitVec 8,
    (Flag (x &&& ~~~synchronization) activity ↔ Flag x activity) ∧
      (Flag (x &&& ~~~synchronization) timeout ↔ Flag x timeout) ∧
      (Flag (x &&& ~~~synchronization ||| synchronization) activity ↔ Flag x activity) ∧
      (Flag (x &&& ~~~synchronization ||| synchronization) timeout ↔ Flag x timeout) ∧
      x &&& ~~~synchronization ||| synchronization ||| synchronization =
        x &&& ~~~synchronization ||| synchronization := by
  decide

namespace LacpState

variable {s : LacpState} {mac : BitVec 48} {now : UInt32}

/-- The information on the partner is not made up. -/
def Known (s : LacpState) : Prop := ¬ Flag s.pkt.actor.state defaulted
  deriving Decidable

/-- The partner gets its reports: the periodic timer runs, and has been started one of the two periods
    before. -/
def Talks (s : LacpState) : Prop :=
  s.Known → s.Active → s.periodicTimer ≠ 0 ∧
    (s.periodicTimer = s.started + fastPeriodicTime ∨ s.periodicTimer = s.started + slowPeriodicTime)

/-- The partner is due a report, and the network card is still the same. -/
def Due (s : LacpState) : Event → Prop
  | .reports mac now => mac = s.pkt.actor.system ∧ timerExpired now s.periodicTimer
  | .frame .. => False

structure Good (s : LacpState) (e : Event) : Prop where
  talks : (s.step e).Talks
  reports : s.Due e → (s.step e).Known → ∃ pkt, (s.step e).sent = some (.lacp pkt)

/-- What the partner says of this side is not what this side says. -/
def Differs (s : LacpState) (pkt : SlowLacp) : Prop :=
  ¬ pkt.partner.Same s.pkt.actor ∨ pkt.partner.state &&& nttMask ≠ s.pkt.actor.state &&& nttMask
  deriving Decidable

/-- The time at which a partner with these flags is due the next report. -/
def nextReport (state : BitVec 8) (now : UInt32) : UInt32 :=
  now + if Flag state timeout then fastPeriodicTime else slowPeriodicTime

/-- The time until which the information on the partner is kept. -/
def keptUntil (s : LacpState) (now : UInt32) : UInt32 :=
  now + if Flag s.pkt.actor.state timeout then shortTimeoutTime else longTimeoutTime

/-- When the information on an active partner expires, or the partner is due a report, the timer is not set
    to 0. -/
def ReportsOk (s : LacpState) (now : UInt32) : Prop :=
  s.Known → s.Active →
    if timerExpired now s.currentWhileTimer then
      ¬ Flag s.pkt.actor.state expired → now + fastPeriodicTime ≠ 0
    else timerExpired now s.periodicTimer → nextReport s.pkt.partner.state now ≠ 0

/-- A data unit that makes one of the sides active finds the timer running, or has to be answered by a report,
    and then the timer is not set to 0. -/
def PduOk (s : LacpState) (now : UInt32) (pkt : SlowLacp) : Prop :=
  Flag pkt.actor.state activity ∨ Flag s.pkt.actor.state activity →
    if timerExpired now (s.keptUntil now) then now + fastPeriodicTime ≠ 0
    else if s.Differs pkt ∨ timerExpired now s.periodicTimer then nextReport pkt.actor.state now ≠ 0
    else s.periodicTimer ≠ 0

def Condition (s : LacpState) : Event → Prop
  | .reports mac now => (s.forNode mac).ReportsOk now
  | .frame mac now ptype packetlen (.lacp pkt) =>
    ptype = 0x8809 → pkt.subtype = 1 → packetlen ≥ 14 + 110 → (s.forNode mac).PduOk now pkt
  | .frame .. => True

/-! ## Reports -/

/-- The periodic timer has been started one of the two periods before. -/
def Started (s : LacpState) : Prop :=
  s.periodicTimer ≠ 0 →
    s.periodicTimer = s.started + fastPeriodicTime ∨ s.periodicTimer = s.started + slowPeriodicTime

/-- The periodic timer runs. -/
def Runs (s : LacpState) : Prop := s.Known → s.Active → s.periodicTimer ≠ 0

theorem talks_iff (h : s.Started) : s.Talks ↔ s.Runs :=
  ⟨fun ht hk ha => (ht hk ha).1, fun hr hk ha => ⟨hr hk ha, h (hr hk ha)⟩⟩

theorem init_not_known (mac : BitVec 48) : ¬ (init mac).Known := by
  show ¬ ¬ Flag (synchronization ||| collecting ||| distributing ||| defaulted) defaulted
  decide

theorem init_started (mac : BitVec 48) : (init mac).Started := fun h => absurd rfl h

@[simp] theorem forNode_self (h : s.pkt.actor.system = mac) : s.forNode mac = s :=
  if_neg (not_not.mpr h.symm)

theorem forNode_system (s : LacpState) (mac : BitVec 48) : (s.forNode mac).pkt.actor.system = mac := by
  unfold forNode
  split
  · rfl
  · next h => exact (not_not.mp h).symm

theorem forNode_cases (s : LacpState) (mac : BitVec 48) : s.forNode mac = s ∨ s.forNode mac = init mac := by
  unfold forNode
  split
  · exact .inr rfl
  · exact .inl rfl

theorem nextReport_eq (s : LacpState) (now : UInt32) : now + s.period = nextReport s.pkt.partner.state now := rfl

theorem known_transmit : (s.transmit now).Known ↔ s.Known := by
  unfold transmit startPeriodicTimer
  split
  · exact Iff.rfl
  · exact Iff.rfl

theorem active_transmit : (s.transmit now).Active ↔ s.Active := by
  unfold transmit startPeriodicTimer
  split
  · exact Iff.rfl
  · exact Iff.rfl

theorem not_known_of_init {s' : LacpState} (h : s' = init mac ∨ s' = (init mac).transmit now) : ¬ s'.Known := by
  rcases h with rfl | rfl
  · exact init_not_known mac
  · rw [known_transmit]
    exact init_not_known mac

theorem runs_transmit :
    (s.transmit now).Runs ↔ (s.Known → s.Active → nextReport s.pkt.partner.state now ≠ 0) := by
  unfold Runs
  rw [known_transmit, active_transmit]
  refine forall_congr' (fun _ => forall_congr' (fun hactive => ?_))
  have htimer : (s.transmit now).periodicTimer = now + s.period := by
    unfold transmit startPeriodicTimer
    rw [if_pos hactive]
  rw [htimer, nextReport_eq]

theorem started_transmit (h : s.Started) : (s.transmit now).Started := by
  unfold transmit startPeriodicTimer
  split
  · intro _
    unfold period
    split
    · exact .inl rfl
    · exact .inr rfl
  · exact h

theorem known_expire : (s.expire now).Known ↔ s.Known :=
  not_congr (flag_of_expire s.pkt.actor.state).2

theorem active_expire : (s.expire now).Active ↔ s.Active :=
  or_congr (flag_of_partner_expire s.pkt.partner.state).1 (flag_of_expire s.pkt.actor.state).1

theorem nextReport_expire : nextReport (s.expire now).pkt.partner.state now = now + fastPeriodicTime :=
  congrArg (now + ·) (if_pos (flag_of_partner_expire s.pkt.partner.state).2)

/-- What `send_lacp_reports` can do: the information on the partner expires for the first or for the second
    time, a report is sent for another reason, or nothing happens. -/
theorem sendLacpReports_cases (hmac : s.pkt.actor.system = mac) (ntt : Bool) :
    (timerExpired now s.currentWhileTimer ∧ ¬ Flag s.pkt.actor.state expired ∧
        s.sendLacpReports mac now ntt = ({ s with sent := none }.expire now).transmit now) ∨
      (timerExpired now s.currentWhileTimer ∧ Flag s.pkt.actor.state expired ∧
        (s.sendLacpReports mac now ntt = init mac ∨
          s.sendLacpReports mac now ntt = (init mac).transmit now)) ∨
      (¬ timerExpired now s.currentWhileTimer ∧ (ntt = true ∨ timerExpired now s.periodicTimer) ∧
        s.sendLacpReports mac now ntt = { s with sent := none }.transmit now) ∨
      (¬ timerExpired now s.currentWhileTimer ∧ ¬ (ntt = true ∨ timerExpired now s.periodicTimer) ∧
        s.sendLacpReports mac now ntt = { s with sent := none }) := by
  unfold sendLacpReports checkCurrent
  rw [forNode_self hmac]
  by_cases hcurrent : timerExpired now s.currentWhileTimer
  · by_cases hexpired : Flag s.pkt.actor.state expired
    · refine .inr (.inl ⟨hcurrent, hexpired, ?_⟩)
      rw [if_pos hcurrent, if_neg (not_not.mpr hexpired)]
      dsimp only
      split
      · exact .inr rfl
      · exact .inl rfl
    · refine .inl ⟨hcurrent, hexpired, ?_⟩
      rw [if_pos hcurrent, if_pos hexpired]
      exact if_pos (.inl rfl)
  · by_cases hreport : ntt = true ∨ timerExpired now s.periodicTimer
    · refine .inr (.inr (.inl ⟨hcurrent, hreport, ?_⟩))
      rw [if_neg hcurrent]
      exact if_pos hreport
    · refine .inr (.inr (.inr ⟨hcurrent, hreport, ?_⟩))
      rw [if_neg hcurrent]
      exact if_neg hreport

/-- What it takes for the timer to run after `send_lacp_reports`. -/
def SendOk (s : LacpState) (now : UInt32) (ntt : Bool) : Prop :=
  s.Known → s.Active →
    if timerExpired now s.currentWhileTimer then
      ¬ Flag s.pkt.actor.state expired → now + fastPeriodicTime ≠ 0
    else if ntt = true ∨ timerExpired now s.periodicTimer then nextReport s.pkt.partner.state now ≠ 0
    else s.periodicTimer ≠ 0

theorem runs_sendLacpReports (hmac : s.pkt.actor.system = mac) (ntt : Bool) :
    (s.sendLacpReports mac now ntt).Runs ↔ s.SendOk now ntt := by
  unfold SendOk
  rcases @sendLacpReports_cases s mac now hmac ntt with
    ⟨hcurrent, hexpired, heq⟩ | ⟨hcurrent, hexpired, heq⟩ | ⟨hcurrent, hreport, heq⟩ | ⟨hcurrent, hreport, heq⟩
  · rw [heq, runs_transmit, known_expire, active_expire, nextReport_expire, if_pos hcurrent]
    exact forall_congr' (fun _ => forall_congr' (fun _ => ⟨fun h _ => h, fun h => h hexpired⟩))
  · rw [if_pos hcurrent]
    exact iff_of_true (fun hknown => absurd hknown (not_known_of_init heq)) (fun _ _ h => absurd hexpired h)
  · rw [heq, runs_transmit, if_neg hcurrent, if_pos hreport]
    exact Iff.rfl
  · rw [heq, if_neg hcurrent, if_neg hreport]
    exact Iff.rfl

theorem started_sendLacpReports (h : s.Started) (hmac : s.pkt.actor.system = mac) (ntt : Bool) :
    (s.sendLacpReports mac now ntt).Started := by
  rcases @sendLacpReports_cases s mac now hmac ntt with
    ⟨-, -, heq⟩ | ⟨-, -, heq | heq⟩ | ⟨-, -, heq⟩ | ⟨-, -, heq⟩
  · rw [heq]
    exact started_transmit h
  · rw [heq]
    exact init_started mac
  · rw [heq]
    exact started_transmit (init_started mac)
  · rw [heq]
    exact started_transmit h
  · rw [heq]
    exact h

/-- A call for another network card is one for the state made anew. -/
theorem sendLacpReports_forNode (s : LacpState) (mac : BitVec 48) (now : UInt32) (ntt : Bool) :
    s.sendLacpReports mac now ntt = (s.forNode mac).sendLacpReports mac now ntt := by
  unfold sendLacpReports
  rw [forNode_self (s.forNode_system mac)]

/-- A report that is due is sent, unless nothing is known of the partner any more. -/
theorem sent_of_due (hmac : s.pkt.actor.system = mac) (hdue : timerExpired now s.periodicTimer)
    (hknown : (s.sendLacpReports mac now false).Known) :
    ∃ pkt, (s.sendLacpReports mac now false).sent = some (.lacp pkt) := by
  rcases @sendLacpReports_cases s mac now hmac false with
    ⟨-, -, heq⟩ | ⟨-, -, heq⟩ | ⟨-, -, heq⟩ | ⟨-, hreport, -⟩
  · rw [heq]
    exact ⟨_, rfl⟩
  · exact absurd hknown (not_known_of_init heq)
  · rw [heq]
    exact ⟨_, rfl⟩
  · exact absurd (.inr hdue) hreport

/-! ## Data units -/

theorem recordedState_flags (s : LacpState) (pkt : SlowLacp) :
    (Flag (s.recordedState pkt) activity ↔ Flag pkt.actor.state activity) ∧
      (Flag (s.recordedState pkt) timeout ↔ Flag pkt.actor.state timeout) := by
  obtain ⟨ha, ht, ha', ht', htwice⟩ := flag_of_synchronization pkt.actor.state
  unfold recordedState
  split
  · split
    · rw [htwice]
      exact ⟨ha', ht'⟩
    · exact ⟨ha', ht'⟩
  · split
    · exact ⟨ha', ht'⟩
    · exact ⟨ha, ht⟩

/-- The state in which `send_lacp_reports` is called for a data unit. -/
def recorded (s : LacpState) (now : UInt32) (pkt : SlowLacp) : LacpState :=
  (s.recordPdu pkt).startCurrentWhileTimer now

variable (pkt : SlowLacp)

theorem known_recorded : (s.recorded now pkt).Known := by
  show ¬ Flag (s.pkt.actor.state &&& ~~~defaulted &&& ~~~expired) defaulted
  rw [(flag_of_expired _).2]
  exact flag_defaulted_cleared s.pkt.actor.state

theorem active_recorded :
    (s.recorded now pkt).Active ↔ Flag pkt.actor.state activity ∨ Flag s.pkt.actor.state activity := by
  refine or_congr (recordedState_flags _ pkt).1 ?_
  show Flag (s.pkt.actor.state &&& ~~~defaulted &&& ~~~expired) activity ↔ _
  rw [(flag_of_expired _).1]
  exact (flag_of_defaulted s.pkt.actor.state).1

theorem nextReport_recorded :
    nextReport (s.recorded now pkt).pkt.partner.state now = nextReport pkt.actor.state now := by
  have hflag := (recordedState_flags (s.setActorState (s.pkt.actor.state &&& ~~~defaulted)) pkt).2
  show nextReport (recordedState _ pkt) now = _
  unfold nextReport
  rw [if_congr hflag rfl rfl]

theorem keptUntil_recorded : (s.recorded now pkt).currentWhileTimer = s.keptUntil now :=
  congrArg (now + ·) (if_congr (flag_of_defaulted s.pkt.actor.state).2 rfl rfl)

theorem started_recorded (h : s.Started) (pkt : SlowLacp) : (s.recorded now pkt).Started := h

theorem updateNtt_eq_true (s : LacpState) (pkt : SlowLacp) : s.updateNtt pkt = true ↔ s.Differs pkt :=
  decide_eq_true_iff

theorem sendOk_recorded :
    (s.recorded now pkt).SendOk now (s.updateNtt pkt) ↔ s.PduOk now pkt := by
  have hcleared : ¬ Flag (s.recorded now pkt).pkt.actor.state expired := flag_expired_cleared _
  have htimer : (s.recorded now pkt).periodicTimer = s.periodicTimer := rfl
  unfold SendOk PduOk
  rw [active_recorded, keptUntil_recorded, nextReport_recorded, htimer]
  simp only [updateNtt_eq_true]
  constructor
  · intro h hactive
    have hok := h (known_recorded pkt) hactive
    split
    · next hcurrent =>
        rw [if_pos hcurrent] at hok
        exact hok hcleared
    · next hcurrent =>
        rw [if_neg hcurrent] at hok
        exact hok
  · intro h _ hactive
    have hok := h hactive
    split
    · next hcurrent =>
        rw [if_pos hcurrent] at hok
        exact fun _ => hok
    · next hcurrent =>
        rw [if_neg hcurrent] at hok
        exact hok

/-! ## Steps and runs -/

/-- The invariant: what has to hold, and that the timer is as it has been started. -/
structure Inv (s : LacpState) : Prop where
  started : s.Started
  runs : s.Runs

theorem zero_inv : zero.Inv := by
  refine ⟨fun h => absurd rfl h, fun _ hactive => ?_⟩
  rcases hactive with h | h
  · exact absurd h (by decide)
  · exact absurd h (by decide)

theorem init_inv (mac : BitVec 48) : (init mac).Inv :=
  ⟨init_started mac, fun h => absurd h (init_not_known mac)⟩

theorem Inv.forNode (h : s.Inv) (mac : BitVec 48) : (s.forNode mac).Inv := by
  rcases s.forNode_cases mac with heq | heq
  · rw [heq]
    exact h
  · rw [heq]
    exact init_inv mac

theorem good_iff {e : Event} (hstarted : (s.step e).Started)
    (hreports : s.Due e → (s.step e).Known → ∃ pkt, (s.step e).sent = some (.lacp pkt)) :
    s.Good e ↔ (s.step e).Runs :=
  ⟨fun h => (talks_iff hstarted).mp h.talks, fun h => ⟨(talks_iff hstarted).mpr h, hreports⟩⟩

theorem reports_spec (hi : s.Inv) (mac : BitVec 48) (now : UInt32) :
    (s.Good (.reports mac now) ↔ s.Condition (.reports mac now)) ∧ (s.step (.reports mac now)).Started := by
  have hnode := s.forNode_system mac
  have hi' := hi.forNode mac
  have hstep : s.step (.reports mac now) = (s.forNode mac).sendLacpReports mac now false :=
    s.sendLacpReports_forNode mac now false
  have hstarted : (s.step (.reports mac now)).Started := by
    rw [hstep]
    exact started_sendLacpReports hi'.started hnode false
  refine ⟨(good_iff hstarted ?_).trans ?_, hstarted⟩
  · rintro ⟨hmac, hdue⟩ hknown
    exact sent_of_due hmac.symm hdue hknown
  · rw [hstep, runs_sendLacpReports hnode]
    refine forall_congr' (fun hknown => forall_congr' (fun hactive => ?_))
    split
    · exact Iff.rfl
    · -- without a report the timer runs as before
      constructor
      · intro h hdue
        rw [if_pos (.inr hdue)] at h
        exact h
      · intro h
        split
        · next hreport => exact h (hreport.resolve_left Bool.false_ne_true)
        · exact hi'.runs hknown hactive

theorem pdu_spec (hi : s.Inv) (mac : BitVec 48) (now : UInt32) (pkt : SlowLacp) :
    ((s.processLacp mac now pkt).Runs ↔ (s.forNode mac).PduOk now pkt) ∧
      (s.processLacp mac now pkt).Started := by
  have hsystem : ((s.forNode mac).recorded now pkt).pkt.actor.system = mac := s.forNode_system mac
  exact ⟨(runs_sendLacpReports hsystem _).trans (sendOk_recorded pkt),
    started_sendLacpReports (started_recorded (hi.forNode mac).started pkt) hsystem _⟩

theorem Inv.quiet (hi : s.Inv) (sent : Option SlowPacket) : { s with sent := sent }.Inv :=
  ⟨hi.started, hi.runs⟩

/-- What a frame does: a data unit of LACP is processed, and any other frame changes nothing but what is
    sent. -/
theorem frame_cases (s : LacpState) (mac : BitVec 48) (now : UInt32) (ptype : UInt16) (packetlen : Nat)
    (pkt : SlowPacket) :
    (∃ pdu, pkt = .lacp pdu ∧ ptype = 0x8809 ∧ pdu.subtype = 1 ∧ packetlen ≥ 14 + 110 ∧
        s.step (.frame mac now ptype packetlen pkt) = { s with sent := none }.processLacp mac now pdu) ∨
      (s.Condition (.frame mac now ptype packetlen pkt) ∧
        ∃ sent, s.step (.frame mac now ptype packetlen pkt) = { s with sent := sent }) := by
  by_cases hslow : ptype ≠ 0x8809 ∨ packetlen < 14 + 1
  · refine .inr ⟨?_, none, if_pos hslow⟩
    cases pkt with
    | lacp pdu => exact fun htype _ hlen => absurd hslow (not_or.mpr ⟨not_not.mpr htype, by omega⟩)
    | marker pkt => trivial
    | other => trivial
  cases pkt with
  | lacp pdu =>
    by_cases hlacp : pdu.subtype = 1 ∧ packetlen ≥ 14 + 110
    · have htype := not_not.mp (not_or.mp hslow).1
      exact .inl ⟨pdu, rfl, htype, hlacp.1, hlacp.2, (if_neg hslow).trans (if_pos hlacp)⟩
    · exact .inr ⟨fun _ h1 h2 => absurd ⟨h1, h2⟩ hlacp, none, (if_neg hslow).trans (if_neg hlacp)⟩
  | marker pkt =>
    by_cases hmarker : packetlen ≥ 14 + 110 ∧ pkt.tlvType = 1 ∧ pkt.markerLength = 0x16
    · exact .inr ⟨trivial, _, (if_neg hslow).trans (if_pos hmarker)⟩
    · exact .inr ⟨trivial, none, (if_neg hslow).trans (if_neg hmarker)⟩
  | other => exact .inr ⟨trivial, none, if_neg hslow⟩

theorem frame_spec (hi : s.Inv) (mac : BitVec 48) (now : UInt32) (ptype : UInt16) (packetlen : Nat)
    (pkt : SlowPacket) :
    (s.Good (.frame mac now ptype packetlen pkt) ↔ s.Condition (.frame mac now ptype packetlen pkt)) ∧
      (s.step (.frame mac now ptype packetlen pkt)).Started := by
  rcases s.frame_cases mac now ptype packetlen pkt with
    ⟨pdu, rfl, htype, hsubtype, hlen, hstep⟩ | ⟨hcond, sent, hstep⟩
  · obtain ⟨hruns, hstarted⟩ := pdu_spec (hi.quiet none) mac now pdu
    rw [← hstep] at hruns hstarted
    refine ⟨(good_iff hstarted (fun h => h.elim)).trans (hruns.trans ?_), hstarted⟩
    have hnode : ({ s with sent := none }.forNode mac).PduOk now pdu ↔ (s.forNode mac).PduOk now pdu := by
      unfold forNode
      split
      · exact Iff.rfl
      · exact Iff.rfl
    rw [hnode]
    exact ⟨fun h _ _ _ => h, fun h => h htype hsubtype hlen⟩
  · have hi' := hi.quiet sent
    rw [← hstep] at hi'
    exact ⟨iff_of_true ((good_iff hi'.started (fun h => h.elim)).mpr hi'.runs) hcond, hi'.started⟩

theorem step_spec (hi : s.Inv) (e : Event) :
    (s.Good e ↔ s.Condition e) ∧ (s.Condition e → (s.step e).Inv) := by
  have hspec : (s.Good e ↔ s.Condition e) ∧ (s.step e).Started := by
    cases e with
    | reports mac now => exact reports_spec hi mac now
    | frame mac now ptype packetlen pkt => exact frame_spec hi mac now ptype packetlen pkt
  refine ⟨hspec.1, fun hcond => ⟨hspec.2, ?_⟩⟩
  exact (talks_iff hspec.2).mp (hspec.1.mpr hcond).talks

/-- **The partner gets its reports**, in every state of a run, exactly if in every step the condition
    holds. -/
theorem talks_iff_condition (es : List Event) :
    AllSteps step Good zero es ↔ AllSteps step Condition zero es :=
  allSteps_iff Inv (fun _ e hi => (step_spec hi e).1) (fun _ e hi => (step_spec hi e).2) zero_inv es

/-- A switch that knows the client from an earlier boot, is active, and agrees with it. -/
def agreeingPdu : SlowLacp :=
  { (init 1).pkt with
    actor := ⟨1, 2, 1, 1, 1, activity ||| aggregation ||| synchronization⟩
    partner := ⟨1, 1, 1, 1, 1, synchronization ||| collecting ||| distributing⟩ }

/-- The first data unit needs no answer, and the client never sends a report. -/
theorem agreeing_partner_without_report :
    ¬ AllSteps step Good zero [.reports 1 100, .frame 1 101 0x8809 124 (.lacp agreeingPdu)] := by
  rintro ⟨-, hgood, -⟩
  exact (hgood.talks (by decide) (by decide)).1 (by decide)

end LacpState

end Lacp
