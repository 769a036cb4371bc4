import Etherboot.Pxe.TftpCalls

set_option autoImplicit false

/-! # What the TFTP calls report

The calls report a success only for the next block, and errors and silence as failures, exactly if three
things do not happen: an error of the server with a code other than 0, which is taken for a block; a data
packet that ends before the number of its block; and a call in between that uses the memory in which
`pxenv_tftp_open` has kept the first block, or fails to open another file while the block is still there. -/

namespace PxeTftp

open Memory
open Tftp (Statics Request Packet BlockInfo Turn newRequest onPacket onTimeout)

namespace Api

variable {a : Api}

/-- Blocks are read as they are received, but for the first one. -/
structure Inv (a : Api) : Prop where
  fresh : a.fresh = [] ∨ ∃ p, a.fresh = [p] ∧ a.count = 0 ∧ IsBlock p 1
  blockidx : a.st.blockidx.toNat = (a.count + a.fresh.length) % 65536
  opening : ∀ rq, a.call.request = some rq → a.fresh = [] ∧ a.count = 0

theorem start_inv (st : Statics) (server : UInt32) (known : Bool) (data : TftpData) :
    (start st server known data).Inv := by
  refine ⟨.inl rfl, ?_, fun rq h => by cases h⟩
  exact (Nat.mod_eq_of_lt st.blockidx.toNat_lt).symm

/-! ## One turn -/

variable {t : Turn} {call : Call}

theorem turn_wait (h : t.out = .wait) (call : Call) :
    a.turn call t = { a with st := t.st, call := call, result := none } := by
  obtain ⟨st, sent, out⟩ := t
  obtain rfl : out = .wait := h
  rfl

theorem turn_hung (h : t.out = .hung) (call : Call) :
    a.turn call t = { a with st := t.st, call := .hung, result := none } := by
  obtain ⟨st, sent, out⟩ := t
  obtain rfl : out = .hung := h
  rfl

theorem turn_zero (h : t.out = .ret 0) (hwaits : call.Waits) :
    a.turn call t = { a with st := t.st }.fail .tftpFileNotFound := by
  obtain ⟨st, sent, out⟩ := t
  obtain rfl : out = .ret 0 := h
  cases call with
  | opening rq b => rfl
  | reading b => rfl
  | idle => exact hwaits.elim
  | hung => exact hwaits.elim

/-- A code other than 0 is taken for a block, of which only the garbage on the stack is there. -/
theorem turn_code {rc : Int} (h : t.out = .ret rc) (hrc : rc ≠ 0)
    (hwaits : call.Waits) (status : Failure) : (a.turn call t).result ≠ some (.failure status) := by
  obtain ⟨st, sent, out⟩ := t
  obtain rfl : out = .ret rc := h
  cases call with
  | opening rq b => simp [turn, hrc, Api.opened]
  | reading b => simp [turn, hrc, readBlock]
  | idle => exact hwaits.elim
  | hung => exact hwaits.elim

theorem turn_opening {b : BlockInfo} (h : t.out = .block b) (rq : Request) (c : BlockInfo) :
    a.turn (.opening rq c) t = { a with st := t.st }.opened (packetSize rq t.st) b := by
  obtain ⟨st, sent, out⟩ := t
  obtain rfl : out = .block b := h
  rfl

theorem turn_reading {b : BlockInfo} (h : t.out = .block b) (c : BlockInfo) :
    a.turn (.reading c) t = { a with st := t.st }.readBlock b := by
  obtain ⟨st, sent, out⟩ := t
  obtain rfl : out = .block b := h
  rfl

/-- A turn that brings nothing reports a failure or nothing, and keeps the invariant. -/
theorem turn_plain (hi : a.Inv) (hplain : Plain a.st t) (hwaits : call.Waits)
    (hcall : ∀ rq, call.request = some rq → a.fresh = [] ∧ a.count = 0) :
    (a.turn call t).Inv ∧ ∀ r, (a.turn call t).result = some r → r = .failure .tftpFileNotFound := by
  obtain ⟨hidx, hout | hout | hout⟩ := hplain
  · rw [turn_wait hout]
    exact ⟨⟨hi.fresh, hidx ▸ hi.blockidx, hcall⟩, fun r h => by cases h⟩
  · rw [turn_hung hout]
    exact ⟨⟨hi.fresh, hidx ▸ hi.blockidx, fun rq h => by cases h⟩,
      fun r h => by cases h⟩
  · rw [turn_zero hout hwaits]
    exact ⟨⟨hi.fresh, hidx ▸ hi.blockidx, fun rq h => by cases h⟩,
      fun r h => (Option.some.inj h).symm⟩

/-! ## One step -/

theorem length_blockOf (st : Statics) {p : Packet} (h : 12 ≤ p.udpLen.toNat) :
    (blockOf st p).len + 12 = p.udpLen.toNat := by
  have hlt := p.udpLen.toNat_lt
  show (p.recvlen + (2 ^ 32 - 2)) % 2 ^ 32 + 12 = p.udpLen.toNat
  rw [Packet.recvlen]
  omega

theorem Inv.quiet (hi : a.Inv) : a.quiet.Inv := ⟨hi.fresh, hi.blockidx, hi.opening⟩

theorem Inv.fail (hi : a.Inv) (status : Failure) : (a.fail status).Inv :=
  ⟨hi.fresh, hi.blockidx, fun rq h => by cases h⟩

theorem Inv.next (hi : a.Inv) : (a.st.blockidx + 1).toNat = (a.count + a.fresh.length + 1) % 65536 := by
  rw [UInt16.toNat_add, hi.blockidx]
  simp only [UInt16.reduceToNat, Nat.reducePow]
  omega

section Packets

variable {p : Packet}

theorem received_next (h : Next a.st p) : a.received p = a.fresh ++ [p] := by
  rw [received, (onPacket_next h _).1]
  rfl

theorem received_other (h : (onPacket a.st a.call.request p).out.delivered = []) :
    a.received p = a.fresh := by
  rw [received, h]
  exact List.append_nil _

theorem isBlock_next (hi : a.Inv) (h : Next a.st p) {n : Nat} (hn : n = a.count + a.fresh.length + 1) :
    IsBlock p n ↔ 12 ≤ p.udpLen.toNat :=
  ⟨fun hb => hb.len, fun hlen => ⟨h.1, hlen, h.2.1.trans (hn ▸ hi.next)⟩⟩

theorem packet_opening (hi : a.Inv) {rq : Request} {c : BlockInfo} (hcall : a.call = .opening rq c)
    (htakes : a.Takes p) (hnext : Next a.st p) :
    (a.Good (.packet p) ↔ 12 ≤ p.udpLen.toNat) ∧ (12 ≤ p.udpLen.toNat → (a.step (.packet p)).Inv) := by
  obtain ⟨hout, hidx, -⟩ := onPacket_next hnext a.call.request
  obtain ⟨hfresh, hcount⟩ := hi.opening rq (by rw [hcall]; rfl)
  have hblock : IsBlock p 1 ↔ 12 ≤ p.udpLen.toNat :=
    isBlock_next hi hnext (by rw [hfresh, hcount]; rfl)
  have hqueue : a.received p = [p] := by rw [received_next hnext, hfresh]; rfl
  have hstep : a.step (.packet p) = _ := if_pos htakes
  rw [hcall] at hout hidx
  rw [hcall, turn_opening hout] at hstep
  refine ⟨⟨fun hgood => ?_, fun hlen => ⟨fun r hr => ?_, fun hfails => ?_⟩⟩, fun hlen => ?_⟩
  · obtain ⟨q, hq, hqblock⟩ := hgood.1 _ (by rw [hstep]; rfl)
    rw [queue, if_pos htakes, hqueue] at hq
    obtain rfl := (List.cons.inj hq).1
    exact hqblock.len
  · rw [hstep] at hr
    cases hr
    rw [queue, if_pos htakes]
    exact ⟨p, hqueue, hblock.mpr hlen⟩
  · exact absurd hfails.2 hnext.not_error
  · rw [hstep]
    refine ⟨.inr ⟨p, hqueue, hcount, hblock.mpr hlen⟩, ?_, fun rq h => by cases h⟩
    show (onPacket a.st _ p).st.blockidx.toNat = (a.count + (a.received p).length) % 65536
    rw [hidx, hi.next, hqueue, hfresh]
    rfl

theorem packet_reading (hi : a.Inv) {c : BlockInfo} (hcall : a.call = .reading c)
    (htakes : a.Takes p) (hnext : Next a.st p) :
    (a.Good (.packet p) ↔ 12 ≤ p.udpLen.toNat ∧ a.fresh = []) ∧
      (12 ≤ p.udpLen.toNat ∧ a.fresh = [] → (a.step (.packet p)).Inv) := by
  obtain ⟨hout, hidx, -⟩ := onPacket_next hnext a.call.request
  have hqueue := received_next hnext
  have hstep : a.step (.packet p) = _ := if_pos htakes
  rw [hcall] at hout hidx
  rw [hcall, turn_reading hout] at hstep
  have hnumber : (blockOf a.st p).block % 65536 = (a.count + a.fresh.length + 1) % 65536 := by
    show (a.st.blockidx + 1).toNat % 65536 = _
    rw [hi.next, Nat.mod_mod]
  refine ⟨⟨fun hgood => ?_, fun h => ⟨fun r hr => ?_, fun hfails => ?_⟩⟩, fun h => ?_⟩
  · obtain ⟨q, rest, hq, hqblock, hnum, -⟩ := hgood.1 _ (by rw [hstep]; rfl)
    rw [queue, if_pos htakes, hqueue] at hq
    have hnil : a.fresh = [] := by
      rcases hi.fresh with hnil | ⟨q, hone, hcount, -⟩
      · exact hnil
      · -- the first block has not been read, and this is the second
        have : (0 + 1 + 1) % 65536 = (0 + 1) % 65536 := by
          rw [hnumber, hone, hcount] at hnum
          exact hnum
        cases this
    rw [hnil] at hq
    obtain rfl := (List.cons.inj hq).1
    exact ⟨hqblock.len, hnil⟩
  · rw [hstep] at hr
    cases hr
    have hlen := length_blockOf a.st h.1
    have hlt := p.udpLen.toNat_lt
    rw [queue, if_pos htakes, hqueue, h.2]
    rw [h.2] at hnumber
    exact ⟨p, [], rfl, (isBlock_next hi hnext (by rw [h.2]; rfl)).mpr h.1, hnumber,
      Nat.mod_eq_of_lt (by omega), hlen, fun i _ => rfl⟩
  · exact absurd hfails.2 hnext.not_error
  · rw [hstep]
    refine ⟨.inl ?_, ?_, fun rq h => by cases h⟩
    · rw [hqueue, h.2]
      rfl
    · show (onPacket a.st _ p).st.blockidx.toNat = (a.count + 1 + (a.received p).tail.length) % 65536
      rw [hidx, hi.next, hqueue, h.2]
      rfl

/-- An error of the server is reported as a failure only if its code is 0. -/
theorem packet_error (hi : a.Inv) (htakes : a.Takes p) (herror : p.opcode = Tftp.opError) :
    (a.Good (.packet p) ↔ be16 p.body 2 = 0) ∧ (be16 p.body 2 = 0 → (a.step (.packet p)).Inv) := by
  have hout : (onPacket a.st a.call.request p).out = .ret (-(be16 p.body 2 : Int)) := by
    rw [Tftp.onPacket_opError herror]
  have hidx : (onPacket a.st a.call.request p).st.blockidx = a.st.blockidx := by
    rw [Tftp.onPacket_opError herror]
    rfl
  have hstep : a.step (.packet p) = _ := if_pos htakes
  rw [received_other (by rw [hout]; rfl)] at hstep
  have hplain : be16 p.body 2 = 0 → Plain a.st (onPacket a.st a.call.request p) := fun hcode =>
    ⟨hidx, .inr (.inr (by rw [hout, hcode]; rfl))⟩
  refine ⟨⟨fun hgood => ?_, fun hcode => ⟨fun r hr => ?_, fun _ => ?_⟩⟩, fun hcode => ?_⟩
  · by_contra hcode
    obtain ⟨status, hstatus⟩ := hgood.2 ⟨htakes, herror⟩
    rw [hstep] at hstatus
    exact turn_code hout (by omega) htakes.1 status hstatus
  · rw [hstep] at hr
    obtain rfl := (turn_plain hi (hplain hcode) htakes.1 hi.opening).2 r hr
    trivial
  · rw [hstep, turn_zero (by rw [hout, hcode]; rfl) htakes.1]
    exact ⟨_, rfl⟩
  · rw [hstep]
    exact (turn_plain hi (hplain hcode) htakes.1 hi.opening).1

theorem packet_plain (hi : a.Inv) (htakes : a.Takes p) (herror : p.opcode ≠ Tftp.opError)
    (hplain : Plain a.st (onPacket a.st a.call.request p)) :
    a.Good (.packet p) ∧ (a.step (.packet p)).Inv := by
  have hnone : (onPacket a.st a.call.request p).out.delivered = [] := by
    rcases hplain.out with h | h | h
    · rw [h]; rfl
    · rw [h]; rfl
    · rw [h]; rfl
  have hstep : a.step (.packet p) = _ := if_pos htakes
  rw [received_other hnone] at hstep
  obtain ⟨hinv, hres⟩ := turn_plain hi hplain htakes.1 hi.opening
  refine ⟨⟨fun r hr => ?_, fun hfails => absurd hfails.2 herror⟩, ?_⟩
  · rw [hstep] at hr
    obtain rfl := hres r hr
    trivial
  · rw [hstep]
    exact hinv

/-- A packet: what it takes for the report to be right, and that this keeps the invariant. -/
theorem packet_spec (hi : a.Inv) (p : Packet) :
    (a.Good (.packet p) ↔ a.Condition (.packet p)) ∧
      (a.Condition (.packet p) → (a.step (.packet p)).Inv) := by
  by_cases htakes : a.Takes p
  · by_cases herror : p.opcode = Tftp.opError
    · obtain ⟨hgood, hinv⟩ := packet_error hi htakes herror
      have hcond : a.Condition (.packet p) ↔ be16 p.body 2 = 0 :=
        ⟨fun h => (h htakes).1 herror, fun h _ => ⟨fun _ => h, fun ha => absurd herror ha.not_error⟩⟩
      rw [hcond]
      exact ⟨hgood, hinv⟩
    by_cases hnext : Next a.st p
    · have hcond : a.Condition (.packet p) ↔ 12 ≤ p.udpLen.toNat ∧ (a.call.request = none → a.fresh = []) :=
        ⟨fun h => (h htakes).2 hnext, fun h _ => ⟨fun he => absurd he hnext.not_error, fun _ => h⟩⟩
      rw [hcond]
      cases hcall : a.call with
      | opening rq c =>
        obtain ⟨hgood, hinv⟩ := packet_opening hi hcall htakes hnext
        exact ⟨hgood.trans ⟨fun h => ⟨h, fun hn => by cases hn⟩, fun h => h.1⟩,
          fun h => hinv h.1⟩
      | reading c =>
        obtain ⟨hgood, hinv⟩ := packet_reading hi hcall htakes hnext
        exact ⟨hgood.trans ⟨fun h => ⟨h.1, fun _ => h.2⟩, fun h => ⟨h.1, h.2 rfl⟩⟩,
          fun h => hinv ⟨h.1, h.2 rfl⟩⟩
      | idle => exact (hcall ▸ htakes.1 : Call.Waits .idle).elim
      | hung => exact (hcall ▸ htakes.1 : Call.Waits .hung).elim
    · obtain ⟨hgood, hinv⟩ := packet_plain hi htakes herror (plain_onPacket herror hnext _)
      exact ⟨iff_of_true hgood (fun _ => ⟨fun h => absurd h herror, fun h => absurd h hnext⟩), fun _ => hinv⟩
  · have hstep : a.step (.packet p) = a.quiet := if_neg htakes
    refine ⟨iff_of_true ⟨fun r hr => ?_, fun h => absurd h.1 htakes⟩ (fun h => absurd h htakes), fun _ => ?_⟩
    · rw [hstep] at hr
      cases hr
    · rw [hstep]
      exact hi.quiet

end Packets

/-! ## The other events -/

/-- No answer has come: the call goes on, or it reports a failure. -/
theorem timeout_spec (hi : a.Inv) (txOk : Bool) :
    a.Good (.timeout txOk) ∧ (a.step (.timeout txOk)).Inv := by
  by_cases hwaits : a.call.Waits
  · have hstep : a.step (.timeout txOk) = _ := if_pos hwaits
    obtain ⟨hinv, hres⟩ := turn_plain hi (plain_onTimeout a.st txOk) hwaits hi.opening
    refine ⟨⟨fun r hr => ?_, fun hfails => ?_⟩, by rw [hstep]; exact hinv⟩
    · rw [hstep] at hr
      obtain rfl := hres r hr
      trivial
    · have hout : (onTimeout a.st txOk).out = .ret 0 := by
        rcases hfails.2 with hretry | rfl
        · rw [onTimeout, if_pos hretry]
        · rw [onTimeout]
          split <;> rfl
      rw [hstep, turn_zero hout hwaits]
      exact ⟨_, rfl⟩
  · have hstep : a.step (.timeout txOk) = a.quiet := if_neg hwaits
    refine ⟨⟨fun r hr => ?_, fun h => absurd h.1 hwaits⟩, by rw [hstep]; exact hi.quiet⟩
    rw [hstep] at hr
    cases hr

theorem good_of_failure {e : Event}
    (hres : ∀ r, (a.step e).result = some r → ∃ status, r = .failure status)
    (hfails : a.Fails e → ∃ status, (a.step e).result = some (.failure status)) : a.Good e := by
  refine ⟨fun r hr => ?_, hfails⟩
  obtain ⟨status, rfl⟩ := hres r hr
  trivial

theorem open_spec (hi : a.Inv) (ready : Bool) (params : OpenParams) (txOk : Bool) (block : BlockInfo) :
    a.Good (.tftpOpen ready params txOk block) ∧ (a.step (.tftpOpen ready params txOk block)).Inv := by
  by_cases hidle : a.call.Idle
  · have hstep : a.step (.tftpOpen ready params txOk block) = _ := if_neg (not_not.mpr hidle)
    cases ready with
    | false =>
      refine ⟨good_of_failure (fun r hr => ?_) (fun h => by cases h.2.1), ?_⟩
      · rw [hstep] at hr
        exact ⟨_, (Option.some.inj hr).symm⟩
      · rw [hstep]
        exact hi.fail _
    | true =>
      cases txOk with
      | false =>
        have hfail : (a.step (.tftpOpen true params false block)).result =
            some (.failure .tftpFileNotFound) := by rw [hstep]; rfl
        refine ⟨good_of_failure (fun r hr => ?_) (fun _ => ⟨_, hfail⟩), ?_⟩
        · exact ⟨_, (Option.some.inj (hfail.symm.trans hr)).symm⟩
        · rw [hstep]
          exact ⟨.inl rfl, rfl, fun rq h => by cases h⟩
      | true =>
        refine ⟨good_of_failure (fun r hr => ?_) (fun h => by cases h.2.2.symm), ?_⟩
        · rw [hstep] at hr
          cases hr
        · rw [hstep]
          exact ⟨.inl rfl, rfl, fun _ _ => ⟨rfl, rfl⟩⟩
  · have hstep : a.step (.tftpOpen ready params txOk block) = a.quiet := if_pos hidle
    refine ⟨good_of_failure (fun r hr => ?_) (fun h => absurd h.1 hidle), by rw [hstep]; exact hi.quiet⟩
    rw [hstep] at hr
    cases hr

theorem read_kept (hi : a.Inv) (hidle : a.call.Idle) (hcookie : a.tftpdata.cookie = magicCookie)
    (block : BlockInfo) :
    (a.Good (.tftpRead true block) ↔ a.Holds) ∧ (a.Holds → (a.step (.tftpRead true block)).Inv) := by
  have hstep : a.step (.tftpRead true block) = _ := if_neg (not_not.mpr hidle)
  rw [if_neg Bool.false_ne_true.symm, tftpRead, if_pos hcookie] at hstep
  have hone : ∀ {p rest}, a.fresh = p :: rest → a.fresh = [p] ∧ a.count = 0 ∧ IsBlock p 1 := by
    intro p rest h
    rcases hi.fresh with hnil | ⟨q, hq, hcount, hblock⟩
    · cases hnil.symm.trans h
    · obtain rfl := (List.cons.inj (hq.symm.trans h)).1
      exact ⟨hq, hcount, hblock⟩
  refine ⟨⟨fun hgood => ?_, ?_⟩, ?_⟩
  · obtain ⟨p, rest, hq, -, -, -, hlen, hdata⟩ := hgood.1 _ (by rw [hstep]; rfl)
    exact ⟨p, (hone hq).1, hlen, hdata⟩
  · rintro ⟨p, hp, hlen, hdata⟩
    refine ⟨fun r hr => ?_, fun h => h.elim⟩
    obtain ⟨-, hcount, hblock⟩ := hone hp
    have hlt := p.udpLen.toNat_lt
    rw [hstep] at hr
    cases hr
    have hsmall : a.tftpdata.len < 65536 := by omega
    exact ⟨p, [], hp, hcount ▸ hblock, by rw [hcount], Nat.mod_eq_of_lt hsmall, hlen, hdata⟩
  · rintro ⟨p, hp, -⟩
    rw [hstep]
    refine ⟨.inl ?_, ?_, fun rq h => by cases h⟩
    · rw [hp]
      rfl
    · show a.st.blockidx.toNat = (a.count + 1 + a.fresh.tail.length) % 65536
      rw [hi.blockidx, hp]
      rfl

theorem read_spec (hi : a.Inv) (ready : Bool) (block : BlockInfo) :
    (a.Good (.tftpRead ready block) ↔ a.Condition (.tftpRead ready block)) ∧
      (a.Condition (.tftpRead ready block) → (a.step (.tftpRead ready block)).Inv) := by
  by_cases hkept : a.call.Idle ∧ ready = true ∧ a.tftpdata.cookie = magicCookie
  · obtain ⟨hidle, rfl, hcookie⟩ := hkept
    obtain ⟨hgood, hinv⟩ := read_kept hi hidle hcookie block
    have hcond : a.Condition (.tftpRead true block) ↔ a.Holds :=
      ⟨fun h => h hidle rfl hcookie, fun h _ _ _ => h⟩
    rw [hcond]
    exact ⟨hgood, hinv⟩
  · have hcond : a.Condition (.tftpRead ready block) := fun h1 h2 h3 => absurd ⟨h1, h2, h3⟩ hkept
    -- in all other cases nothing is reported, or a failure
    have hrest : (a.step (.tftpRead ready block)).Inv ∧
        ∀ r, (a.step (.tftpRead ready block)).result = some r → ∃ status, r = .failure status := by
      rw [step]
      split
      · exact ⟨hi.quiet, fun r hr => by cases hr⟩
      · next hidle =>
        split
        · exact ⟨hi.fail _, fun r hr => ⟨_, (Option.some.inj hr).symm⟩⟩
        · next hready =>
          rw [tftpRead, if_neg (fun h => hkept ⟨not_not.mp hidle, Bool.eq_true_of_not_eq_false hready, h⟩)]
          split
          · exact ⟨hi.fail _, fun r hr => ⟨_, (Option.some.inj hr).symm⟩⟩
          · exact ⟨⟨hi.fresh, hi.blockidx, fun rq h => by cases h⟩,
              fun r hr => by cases hr⟩
    exact ⟨iff_of_true (good_of_failure hrest.2 (fun h => h.elim)) hcond, fun _ => hrest.1⟩

theorem other_spec (hi : a.Inv) (data : TftpData) : a.Good (.other data) ∧ (a.step (.other data)).Inv := by
  have hstep : (a.step (.other data)).result = none ∧ (a.step (.other data)).Inv := by
    rw [step]
    split
    · exact ⟨rfl, hi.fresh, hi.blockidx, hi.opening⟩
    · exact ⟨rfl, hi.quiet⟩
  refine ⟨good_of_failure (fun r hr => ?_) (fun h => h.elim), hstep.2⟩
  rw [hstep.1] at hr
  cases hr

theorem step_spec (hi : a.Inv) (e : Event) :
    (a.Good e ↔ a.Condition e) ∧ (a.Condition e → (a.step e).Inv) := by
  cases e with
  | packet p => exact packet_spec hi p
  | tftpRead ready block => exact read_spec hi ready block
  | tftpOpen ready params txOk block =>
    obtain ⟨hgood, hinv⟩ := open_spec hi ready params txOk block
    exact ⟨iff_of_true hgood trivial, fun _ => hinv⟩
  | timeout txOk =>
    obtain ⟨hgood, hinv⟩ := timeout_spec hi txOk
    exact ⟨iff_of_true hgood trivial, fun _ => hinv⟩
  | other data =>
    obtain ⟨hgood, hinv⟩ := other_spec hi data
    exact ⟨iff_of_true hgood trivial, fun _ => hinv⟩

/-! ## Runs -/

/-- **What is reported is right**, in every step, exactly if in every step the condition holds. -/
theorem reports_right_iff (st : Statics) (server : UInt32) (known : Bool) (data : TftpData)
    (es : List Event) :
    AllSteps step Good (start st server known data) es ↔
      AllSteps step Condition (start st server known data) es :=
  allSteps_iff Inv (fun _ e hi => (step_spec hi e).1) (fun _ e hi => (step_spec hi e).2)
    (start_inv st server known data) es

end Api

/-! ## Runs in which a success is reported without a block -/

/-- A short packet for the first port that the client uses. -/
def packetOf (opcode number : UInt8) : Packet :=
  ⟨1069, 2001, 13, fun i => if i = 1 then opcode else if i = 3 then number else 0⟩

/-- The stack of an image that has opened nothing yet. -/
def idleApi : Api := .start ⟨2000, 69, .ack 0, 0, 0, 0⟩ 0x0100000a true ⟨0, 0, false, fun _ => 0⟩

def someParams : OpenParams := ⟨0, [0x78], 69, 512⟩

/-- What has been left on the stack. -/
def garbage : BlockInfo := ⟨fun _ => 0, 7, 100, false⟩

/-- The server has no such file, says so with the code 1, and `pxenv_tftp_open` reports a success. A file has
    been opened but not read, there is no answer when another one is opened, and `pxenv_tftp_read` reads the
    block of the first file. -/
theorem success_without_block :
    ¬ AllSteps Api.step Api.Good idleApi
        [.tftpOpen true someParams true garbage, .packet (packetOf 5 1)] ∧
      ¬ AllSteps Api.step Api.Good idleApi
        [.tftpOpen true someParams true garbage, .packet (packetOf 3 1),
          .tftpOpen true someParams false garbage, .tftpRead true garbage] := by
  constructor
  · rintro ⟨-, hgood, -⟩
    obtain ⟨status, hstatus⟩ := hgood.2 ⟨by decide, by decide⟩
    exact Result.noConfusion (Option.some.inj hstatus)
  · rintro ⟨-, -, -, hgood, -⟩
    obtain ⟨p, rest, hqueue, -⟩ := hgood.1 _ rfl
    cases hqueue.symm

end PxeTftp
