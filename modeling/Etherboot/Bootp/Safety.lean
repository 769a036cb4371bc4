import Etherboot.Bootp.Decode

set_option autoImplicit false

/-! # Which replies are decoded inside `bootp_data`

`Ctl.lookEnd` is how far a step looks, as the tag and the length of the option say. `within_step` shows
that it is exactly that. Nothing compares it with the end of `bootp_data`: the walk itself ends four bytes
behind it, and the length of an option is not checked before its bytes are used. The name of an extension
file is copied to a buffer of 64 bytes, whatever its length. -/

namespace Bootp

open Memory Prog Decoder

/-! ## How far a step looks -/

/-- The position behind the bytes that a search for the name of Etherboot looks at. -/
def vciLoopEnd (b : Store) (last : Nat) : Nat → Nat → Nat
  | 0, _ => 0
  | n + 1, p =>
    if p < last then
      if b p = rfc2132VendorClassId then
        if b.Has (p + 2) etherbootName then p + 2 + etherbootName.length
        else max (p + 2 + b.compared (p + 2) etherbootName)
          (vciLoopEnd b last n (p + (b (p + 1)).toNat + 2))
      else if b p = rfc1533End then p + 1
      else max (p + 2) (vciLoopEnd b last n (p + (b (p + 1)).toNat + 2))
    else 0

/-- The position behind the bytes that the option at `p` is looked at for. -/
def Kind.lookEnd (b : Store) (p : Nat) : Kind → Nat
  | .netmask | .srvId => p + 6
  | .gateway | .dns => if 4 ≤ (b (p + 1)).toNat then p + 6 else p + 2
  | .msgType => p + 3
  | .vendorMagic =>
    if 6 ≤ (b (p + 1)).toNat then p + 2 + b.compared (p + 2) (vendorextMagic ++ [rfc1533VendorMajor])
    else p + 2
  | .vendor => max (p + 2) (vciLoopEnd b (p + 2 + (b (p + 1)).toNat) 128 (p + 2))
  | .hostname | .addparm | .extensionpath | .etherbootEncap | .unknown => p + 2

/-- The position behind the bytes that a step looks at. -/
def Ctl.lookEnd (build : Build) (b : Store) (c : Ctl) : Nat :=
  let p := c.level.p
  match c.phase with
  | .done => 0
  | .returning => (c.outer.map (fun o => o.p + 2)).getD 0
  | .walk =>
    if p < c.level.endp then
      if b p = rfc1533Pad ∨ b p = rfc1533End then p + 1
      else (Kind.of build c.encapsulated (b p)).lookEnd b p
    else (c.level.extpath.map (fun x => x + 2 + (b (x + 1)).toNat)).getD 0

variable {p n : Nat} {b : Store}

theorem within_readAddress {old : Nat} :
    (readAddress p old).Within n b ↔ (if 4 ≤ (b (p + 1)).toNat then p + 6 else p + 2) ≤ n := by
  rw [readAddress, within_readByte_bind, within_ite, within_readBe32]
  split
  · omega
  · simp only [within_pure, and_true]
    omega

theorem within_readMagic : (readMagic p).Within n b ↔ Kind.lookEnd b p .vendorMagic ≤ n := by
  have hne : vendorextMagic ++ [rfc1533VendorMajor] ≠ [] := by decide
  rw [readMagic, within_readByte_bind, within_ite, within_memcmp hne, Kind.lookEnd]
  split
  · omega
  · simp only [within_pure, and_true]
    omega

theorem run_vciMatches (p : Nat) (c : UInt8) (b : Store) :
    (vciMatches p c).run b = (decide (c = rfc2132VendorClassId ∧ b.Has (p + 2) etherbootName), b) := by
  rw [vciMatches, run_ite, run_memcmp]
  by_cases hc : c = rfc2132VendorClassId <;> simp [hc]

theorem within_findVciLoop {last k : Nat} :
    (findVciLoop last k p).Within n b ↔ vciLoopEnd b last k p ≤ n := by
  induction k generalizing p with
  | zero => simp [findVciLoop, vciLoopEnd]
  | succ k ih =>
    have hne : etherbootName ≠ [] := by decide
    have hpos := b.compared_pos (p + 2) hne
    rw [findVciLoop, vciLoopEnd, within_ite]
    split
    · rw [within_readByte_bind, within_bind_of (run_vciMatches _ _ _), vciMatches, within_ite,
        within_memcmp hne]
      by_cases hc : b p = rfc2132VendorClassId
      · have hend : rfc2132VendorClassId ≠ rfc1533End := by decide
        by_cases hhas : b.Has (p + 2) etherbootName
        · rw [Store.compared_of_has hhas] at hpos ⊢
          simp only [hc, hhas, and_self, decide_true, if_true, within_pure, and_true]
          omega
        · simp only [hc, hhas, and_false, decide_false, Bool.false_eq_true, if_true, if_false, hend]
          rw [within_readByte_bind, ih]
          omega
      · simp only [hc, false_and, decide_false, Bool.false_eq_true, if_false, within_pure, true_and]
        by_cases hend : b p = rfc1533End
        · simp only [hend, if_true, within_pure, and_true]
          omega
        · simp only [hend, if_false]
          rw [within_readByte_bind, ih]
          omega
    · simp

/-- An option is looked at for as long as its kind needs, and its length is read in any case. -/
theorem within_act {v : Vars} {k : Kind} : (act p v k).Within n b ∧ p + 1 < n ↔ k.lookEnd b p ≤ n := by
  cases k with
  | vendorMagic =>
    have hread : (act p v .vendorMagic).Within n b ↔ (readMagic p).Within n b := by
      rw [act, within_bind_of (run_readMagic _ _), and_iff_left (within_pure _ _ _)]
    rw [hread, within_readMagic, Kind.lookEnd]
    split <;> omega
  | vendor =>
    rw [act, within_bind_of (run_findVciEtherboot _ _), and_iff_left (within_pure _ _ _),
      findVciEtherboot, within_readByte_bind, within_findVciLoop, Kind.lookEnd]
    show (p + 1 < n ∧ vciLoopEnd b (p + 2 + (b (p + 1)).toNat) 128 (p + 2) ≤ n) ∧ p + 1 < n ↔ _
    omega
  | gateway =>
    rw [act, within_bind_of (run_readAddress _ _ _), and_iff_left (within_pure _ _ _),
      within_readAddress, Kind.lookEnd]
    split <;> omega
  | dns =>
    rw [act, within_bind_of (run_readAddress _ _ _), and_iff_left (within_pure _ _ _),
      within_readAddress, Kind.lookEnd]
    split <;> omega
  | _ =>
    simp only [act, within_bind, within_readBe32, within_readByte, within_pure, and_true, true_and,
      Kind.lookEnd]
    omega

/-- **How far a step looks.** -/
theorem within_step {build : Build} {d : Decoder} :
    (d.step build).Within n b ↔ d.ctl.lookEnd build b ≤ n := by
  obtain ⟨⟨⟨p, endp, extpath⟩, outer, phase⟩, v⟩ := d
  cases phase with
  | done => simp [step, Ctl.lookEnd]
  | returning =>
    cases outer with
    | none => simp [step, resume, Ctl.lookEnd]
    | some o =>
      simp only [step, resume, Ctl.lookEnd, within_bind, within_readByte, within_pure,
        and_true, Option.map_some, Option.getD_some]
      omega
  | walk =>
    simp only [step, Ctl.lookEnd, within_ite]
    split
    · rw [within_readByte_bind]
      by_cases hpad : b p = rfc1533Pad
      · simp only [hpad, if_true, true_or, within_pure, and_true]
        omega
      · by_cases hend : b p = rfc1533End
        · have hne : rfc1533End ≠ rfc1533Pad := by decide
          simp only [hend, hne, if_true, if_false, or_true, within_pure, and_true]
          omega
        · simp only [hpad, hend, if_false, or_self, option]
          rw [within_bind_of (run_act _ _ _ _), within_readByte_bind,
            and_iff_left (within_pure _ _ _), within_act]
          apply and_iff_right_of_imp
          intro hlook
          have hlt := (within_act (v := v).mpr hlook).2
          omega
    · cases extpath with
      | none => simp [finish]
      | some x =>
        simp only [finish]
        rw [within_readByte_bind, within_bind_of (run_readBytes _ _ _),
          within_readBytes, and_iff_left (within_pure _ _ _)]
        simp only [Option.map_some, Option.getD_some]
        omega

/-! ## Whole replies -/

/-- What the transfer of an extension file does, by the calls of the decoder for its blocks. -/
structure Transfer where
  vars : Vars → Vars
  data : Store → Store

structure State where
  decoder : Decoder
  data : Store

/-- The step asks for an extension file. -/
def Ctl.Asks (c : Ctl) : Prop := c.phase = .walk ∧ ¬ c.level.p < c.level.endp ∧ c.level.extpath.isSome
  deriving Decidable

/-- A step, with the transfer that follows if it asks for a file. -/
def State.step (build : Build) (s : State) (t : Transfer) : State :=
  let r := (s.decoder.step build).run s.data
  if s.decoder.ctl.Asks then ⟨{ r.1 with vars := t.vars r.1.vars }, t.data r.2⟩ else ⟨r.1, r.2⟩

/-- The decoder behind the cookie. -/
def State.start (data : Store) (v : Vars) : State :=
  let r := (Decoder.start v).run data
  ⟨r.1, r.2⟩

/-- The step keeps to `bootp_data`, and a name it copies fits into the buffer, with its null. -/
def SafeStep (build : Build) (s : State) : Prop :=
  (s.decoder.step build).Within sizeofBootpd s.data ∧
    ∀ name ∈ ((s.decoder.step build).run s.data).1.vars.names.drop s.decoder.vars.names.length,
      name.length + 1 ≤ fnameSize

instance (build : Build) (s : State) : Decidable (SafeStep build s) :=
  inferInstanceAs (Decidable ((∀ i ∈ _, i < _) ∧ ∀ name ∈ _, _))

/-- The condition on an option, or on what follows the options: what is looked at lies inside, and an
    extension path has at most 63 bytes. -/
def FittingStep (build : Build) (s : State) : Prop :=
  s.decoder.ctl.lookEnd build s.data ≤ sizeofBootpd ∧
    (s.decoder.ctl.Asks → ∀ x, s.decoder.ctl.level.extpath = some x →
      (s.data (x + 1)).toNat ≤ 63)

theorem take_names (b : Store) (p : Nat) (v : Vars) (k : Kind) : (v.take b p k).names = v.names := by
  cases k with
  | vendorMagic =>
    rw [Vars.take]
    split <;> rfl
  | _ => rfl

theorem next_names (build : Build) (b : Store) (c : Ctl) (v : Vars) :
    (v.next build b c).names =
      v.names ++ (if c.Asks then (c.level.extpath.map (nameAt b)).toList else []) := by
  obtain ⟨⟨p, endp, extpath⟩, outer, phase⟩ := c
  cases phase with
  | done => simp [Vars.next, Ctl.Asks]
  | returning => simp [Vars.next, Ctl.Asks]
  | walk =>
    by_cases hlt : p < endp
    · have hno : ¬ Ctl.Asks ⟨⟨p, endp, extpath⟩, outer, .walk⟩ := fun h => h.2.1 hlt
      rw [if_neg hno, List.append_nil]
      simp only [Vars.next, if_pos hlt]
      split_ifs
      · rfl
      · rfl
      · exact take_names ..
    · cases extpath <;> simp [Vars.next, Ctl.Asks, hlt]

theorem safeStep_iff (build : Build) (s : State) : SafeStep build s ↔ FittingStep build s := by
  rw [SafeStep, FittingStep, within_step, run_step]
  apply and_congr_right
  intro _
  simp only [next_names, List.drop_left]
  by_cases hasks : s.decoder.ctl.Asks
  · rw [if_pos hasks, forall_prop_of_true hasks]
    cases hx : s.decoder.ctl.level.extpath with
    | none => simp
    | some x =>
      simp only [Option.map_some, Option.toList_some, List.forall_mem_singleton, nameAt, Store.length_slice,
        Option.some.injEq, forall_eq', fnameSize]
      omega
  · simp [hasks]

/-- **Decoding inside `bootp_data`.** The decoder keeps to `bootp_data` and to its buffer exactly if each
    option it comes to fits. -/
theorem decode_inside_iff (build : Build) (data : Store) (v : Vars) (ts : List Transfer) :
    ((Decoder.start v).Within sizeofBootpd data ∧
        AllSteps (State.step build) (fun s _ => SafeStep build s) (State.start data v) ts) ↔
      AllSteps (State.step build) (fun s _ => FittingStep build s) (State.start data v) ts := by
  have hstart : (start v).Within sizeofBootpd data := by
    have hcookie := Store.compared_le data vendOffset rfc1533Cookie
    rw [start, within_bind_of (run_memcmp _ _ _), within_memcmp (by decide)]
    refine ⟨Nat.le_trans (Nat.add_le_add_left hcookie _) (by decide), within_pure _ _ _⟩
  rw [and_iff_right hstart]
  exact allSteps_iff (fun _ => True) (fun s _ _ => safeStep_iff build s) (fun _ _ _ _ => trivial) trivial ts

/-- Four unknown options of 255 bytes and one of 202 bytes end with `bootp_data`, without END. -/
def runsOut : Store :=
  let option (n : Nat) : List UInt8 := 2 :: UInt8.ofNat n :: List.replicate n 0
  Store.splice (fun _ => 0) vendOffset
    (rfc1533Cookie ++ option 255 ++ option 255 ++ option 255 ++ option 255 ++ option 202)

/-- An extension path of 64 letters, and END. -/
def longPath : Store :=
  Store.splice (fun _ => 0) vendOffset
    (rfc1533Cookie ++ [rfc1533Extensionpath, 64] ++ List.replicate 64 120 ++ [rfc1533End])

def noVars : Vars := ⟨0, 0, 0, 0, 0, none, 0, none, 0, 0, false, none, none, none, []⟩

def plainBuild : Build := ⟨true, false, false, false⟩

/-- No block of the extension file arrives. -/
def noTransfer : Transfer := ⟨id, id⟩

theorem reads_behind_and_long_name :
    ¬ AllSteps (State.step plainBuild) (fun s _ => SafeStep plainBuild s) (State.start runsOut noVars)
        (List.replicate 6 noTransfer) ∧
      ¬ AllSteps (State.step plainBuild) (fun s _ => SafeStep plainBuild s) (State.start longPath noVars)
        (List.replicate 3 noTransfer) := by
  decide +kernel

end Bootp
