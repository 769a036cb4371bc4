import Etherboot.Lib.Transition

set_option autoImplicit false

/-! # The states of the PXE stack

`ensure_pxe_state` in `core/pxe_export.c`, the installing and hooking of the stack in
`arch/i386/core/pxe_callbacks.c` and the hiding of Etherboot in `firmware/pcbios/hidemem.c`, which the UNDI
driver (`drivers/net/undi.c`) uses as well while it probes for a card. The stack has a record of its state,
and every function skips what the record says is done already. The interrupt vectors and the card are another
matter: images and ROMs write the vectors too, and Etherboot starts and stops the card by itself.

A vector is modelled with what it leads to: the chain of the handlers, each of which calls the next one. -/

namespace Pxe

/-- `pxe_stack_state_t` -/
inductive StackState where
  | canUnload
  | midway
  | ready
  deriving DecidableEq, Repr

namespace StackState

/-- The number of the state, by which the source compares them. -/
def code : StackState → Nat
  | canUnload => 0
  | midway => 1
  | ready => 2

end StackState

open StackState

/-- Handlers of Etherboot, which are a copy of `e820mangler` with its address and the one for INT 1A, and all
    others. -/
inductive Handler where
  | mangler (copy : Nat)
  | int1a
  | other (n : Nat)
  deriving DecidableEq, Repr

def Handler.ours : Handler → Bool
  | other _ => false
  | _ => true

/-- The chain leads to Etherboot. -/
def Leads (c : List Handler) : Prop := c.any Handler.ours = true
  deriving Decidable

@[simp] theorem leads_mangler (copy : Nat) (c : List Handler) : Leads (.mangler copy :: c) := rfl

@[simp] theorem leads_int1a (c : List Handler) : Leads (.int1a :: c) := rfl

/-- `stack` is the state in `pxe_stack`, if there is a stack, and `nicUp` says that `nic.dev.disable` is not
    null. -/
structure Machine where
  stack : Option StackState
  mangler : Option Nat
  mangling : Bool
  int15 : List Handler
  interceptedInt15 : List Handler
  int1a : List Handler
  interceptedInt1a : List Handler
  nicUp : Bool
  deriving DecidableEq, Repr

/-- Code that is not Etherboot's writes a vector: it hooks it, or restores what it once found there. -/
inductive Write where
  | int15 (c : List Handler)
  | int1a (c : List Handler)
  deriving DecidableEq, Repr

/-- What is done while a driver runs: code of others writes a vector, or the UNDI driver has the loader in a
    ROM called, with its base memory for a copy of the mangler. -/
inductive Deed where
  | write (w : Write)
  | undiCallLoader (copy : Nat) (rom : List Write)
  deriving DecidableEq, Repr

/-- What the drivers do when they look for a card, and whether they find it; and what the driver does that
    stops the card. -/
structure Driver where
  probe : List Deed
  found : Bool
  stop : List Deed
  deriving DecidableEq, Repr

namespace Machine

/-! ## Hiding Etherboot -/

variable (m : Machine) (d : Driver)

def installE820mangler (newMangler : Nat) : Machine × Bool :=
  if m.mangling then (m, false) else ({ m with mangler := some newMangler }, true)

def hideEtherboot : Machine × Bool :=
  if m.mangling then (m, true)
  else
    match m.mangler with
    | none => (m, false)
    | some copy =>
      ({ m with interceptedInt15 := m.int15, int15 := .mangler copy :: m.int15, mangling := true }, true)

def unhideEtherboot : Machine × Bool :=
  if m.mangling = false then (m, true)
  else if m.int15.head? ≠ m.mangler.map .mangler then (m, false)
  else ({ m with int15 := m.interceptedInt15, mangling := false }, true)

/-! ## The card -/

def write : Write → Machine
  | .int15 c => { m with int15 := c }
  | .int1a c => { m with int1a := c }

/-- `undi_call_loader`. Etherboot is hidden already if the stack is hooked, and is not hidden afterwards. -/
def undiCallLoader (copy : Nat) (rom : List Write) : Machine :=
  (rom.foldl write (m.installE820mangler copy).1.hideEtherboot.1).unhideEtherboot.1

def deed : Deed → Machine
  | .write w => m.write w
  | .undiCallLoader copy rom => m.undiCallLoader copy rom

def driven (ds : List Deed) : Machine := ds.foldl deed m

def ethProbe : Machine × Bool :=
  ({ m.driven d.probe with nicUp := d.found }, d.found)

def ethDisable : Machine :=
  if m.nicUp then { m.driven d.stop with nicUp := false } else m

/-! ## The stack -/

/-- `install_pxe_stack`; `base` is the base memory for it, if there is any. -/
def installPxeStack (base : Option Nat) : Machine :=
  if m.stack.isSome then m
  else
    match base with
    | none => m
    | some copy => ({ m with stack := some canUnload }.installE820mangler copy).1

/-- `hook_pxe_stack`; the result of `hide_etherboot` is not looked at. -/
def hookPxeStack : Machine × Bool :=
  match m.stack with
  | none => (m, false)
  | some st =>
    if midway.code ≤ st.code then (m, true)
    else
      let m := m.hideEtherboot.1
      ({ m with interceptedInt1a := m.int1a, int1a := .int1a :: m.int1a, stack := some midway }, true)

def unhookPxeStack : Machine × Bool :=
  match m.stack with
  | none => (m, false)
  | some st =>
    if st.code ≤ canUnload.code then (m, true)
    else
      let r := { m with int1a := m.interceptedInt1a }.unhideEtherboot
      if r.2 then ({ r.1 with stack := some canUnload }, true) else r

/-- `pxe_stack->state`, where there is a stack -/
def state : StackState := m.stack.getD canUnload

def pxeInitialiseNic : Machine × Bool :=
  if ready.code ≤ m.state.code then (m, true)
  else if m.nicUp then ({ m with stack := some ready }, true)
  else
    let r := m.ethProbe d
    if r.2 = false then r else ({ r.1 with stack := some ready }, true)

def pxeShutdownNic : Machine × Bool :=
  if m.state.code ≤ midway.code then (m, true) else ({ m.ethDisable d with stack := some midway }, true)

/-- `ensure_pxe_state`; the second component is the result. -/
def ensurePxeState (wanted : StackState) : Machine × Bool :=
  if m.stack = none then (m, false)
  else
    let hooked := if midway.code ≤ wanted.code then m.hookPxeStack else (m, true)
    let nic :=
      if midway.code < wanted.code then hooked.1.pxeInitialiseNic d else hooked.1.pxeShutdownNic d
    let unhooked := if wanted.code < midway.code then nic.1.unhookPxeStack else (nic.1, true)
    (unhooked.1, hooked.2 && nic.2 && unhooked.2)

/-- `remove_pxe_stack` -/
def removePxeStack : Machine :=
  let r := m.ensurePxeState d canUnload
  if r.2 then { r.1 with stack := none } else r.1

/-! ## What the states are to mean -/

def Hooked : Prop := Leads m.int15 ∧ Leads m.int1a

def Unhooked : Prop := ¬ Leads m.int15 ∧ ¬ Leads m.int1a

/-- The three states as `pxe_export.c` describes them. -/
def Documented : StackState → Prop
  | canUnload => m.Unhooked ∧ m.nicUp = false
  | midway => m.Hooked ∧ m.nicUp = false
  | ready => m.Hooked ∧ m.nicUp = true

instance (m : Machine) : (w : StackState) → Decidable (m.Documented w)
  | canUnload => inferInstanceAs (Decidable ((_ ∧ _) ∧ _))
  | midway => inferInstanceAs (Decidable ((_ ∧ _) ∧ _))
  | ready => inferInstanceAs (Decidable ((_ ∧ _) ∧ _))

end Machine

/-! ## What happens to the machine -/

/-- A state is ensured; the stack is installed or removed; Etherboot starts the card, or stops it in
    `cleanup`; an image writes a vector. -/
inductive Event where
  | ensure (wanted : StackState) (d : Driver)
  | install (base : Option Nat)
  | remove (d : Driver)
  | start (d : Driver)
  | cleanup (d : Driver)
  | image (w : Write)
  deriving DecidableEq, Repr

namespace Machine

def step (m : Machine) : Event → Machine
  | .ensure wanted d => (m.ensurePxeState d wanted).1
  | .install base => m.installPxeStack base
  | .remove d => m.removePxeStack d
  | .start d => (m.ethProbe d).1
  | .cleanup d => m.ethDisable d
  | .image w => m.write w

/-- If the state is ensured, it is as documented. -/
def Good (m : Machine) : Event → Prop
  | .ensure wanted d => (m.ensurePxeState d wanted).2 = true → (m.ensurePxeState d wanted).1.Documented wanted
  | .remove d =>
    (m.ensurePxeState d canUnload).2 = true → (m.ensurePxeState d canUnload).1.Documented canUnload
  | _ => True

/-! ## The record and the machine -/

/-- The machine when the card is down that the record `st` says is up. -/
def rested (m : Machine) (st : StackState) (d : Driver) : Machine := if st = ready then m.ethDisable d else m

/-- A probe is made, the record not saying that the card is up. -/
def Probes (m : Machine) (st : StackState) : Prop := st ≠ ready ∧ m.nicUp = false
  deriving Decidable

/-- The state can be ensured: there is a card for `READY`, and INT 15 can be restored for `CAN_UNLOAD`. -/
def CanEnsure (m : Machine) (st : StackState) (d : Driver) : StackState → Prop
  | canUnload =>
    st = canUnload ∨ (m.rested st d).mangling = false ∨
      (m.rested st d).int15.head? = (m.rested st d).mangler.map .mangler
  | midway => True
  | ready => m.Probes st → d.found = true

/-- The vectors are hooked, or will be if the record says that they are not: INT 15 is left alone then if
    Etherboot is hidden already, or there is nothing to hide it with. -/
def HookedIn (m : Machine) (st : StackState) : Prop :=
  if st = canUnload then m.mangling = true ∨ m.mangler = none → Leads m.int15 else m.Hooked

/-- What the vectors will be restored to does not lead to Etherboot; INT 15 is left alone if Etherboot is not
    hidden. -/
def UnhookedIn (m : Machine) (st : StackState) : Prop :=
  if st = canUnload then m.Unhooked
  else ¬ Leads (if m.mangling then m.interceptedInt15 else m.int15) ∧ ¬ Leads m.interceptedInt1a

/-- The record is right about what `ensure_pxe_state` does not do because of it, what has been saved of the
    vectors is right, and a probe leaves them hooked. -/
def Agrees (m : Machine) (st : StackState) (d : Driver) : StackState → Prop
  | canUnload => (m.rested st d).UnhookedIn st ∧ (st ≠ ready → m.nicUp = false)
  | midway => (m.rested st d).HookedIn st ∧ (st ≠ ready → m.nicUp = false)
  | ready =>
    (if m.Probes st then (m.hookPxeStack.1.driven d.probe).Hooked else m.HookedIn st) ∧
      (st = ready → m.nicUp = true)

def Condition (m : Machine) : Event → Prop
  | .ensure wanted d => ∀ st, m.stack = some st → m.CanEnsure st d wanted → m.Agrees st d wanted
  | .remove d => ∀ st, m.stack = some st → m.CanEnsure st d canUnload → m.Agrees st d canUnload
  | _ => True

variable {m : Machine} {st : StackState}

theorem hookPxeStack_active (hstack : m.stack = some st) (hst : st ≠ canUnload) :
    m.hookPxeStack = (m, true) := by
  cases st with
  | canUnload => exact absurd rfl hst
  | midway => simp [hookPxeStack, hstack]
  | ready => simp [hookPxeStack, hstack, code]

theorem hookPxeStack_inactive (hstack : m.stack = some canUnload) :
    m.hookPxeStack = ({ m.hideEtherboot.1 with
      interceptedInt1a := m.hideEtherboot.1.int1a, int1a := .int1a :: m.hideEtherboot.1.int1a,
      stack := some midway }, true) := by
  simp [hookPxeStack, hstack, code]

theorem hideEtherboot_int15 (m : Machine) :
    Leads m.hideEtherboot.1.int15 ↔ (m.mangling = true ∨ m.mangler = none → Leads m.int15) := by
  unfold hideEtherboot
  cases m.mangling with
  | true => simp
  | false => cases m.mangler <;> simp

theorem hideEtherboot_nicUp (m : Machine) : m.hideEtherboot.1.nicUp = m.nicUp := by
  unfold hideEtherboot
  split
  · rfl
  · split <;> rfl

/-- After hooking the record says so, and the vectors are hooked unless the record was wrong. -/
theorem hookPxeStack_spec (hstack : m.stack = some st) :
    m.hookPxeStack.2 = true ∧ m.hookPxeStack.1.nicUp = m.nicUp ∧
      m.hookPxeStack.1.stack = some (if st = canUnload then midway else st) ∧
      (m.hookPxeStack.1.Hooked ↔ m.HookedIn st) := by
  by_cases hst : st = canUnload
  · subst hst
    rw [hookPxeStack_inactive hstack, HookedIn, if_pos rfl, if_pos rfl]
    refine ⟨rfl, m.hideEtherboot_nicUp, rfl, ?_⟩
    simp only [Hooked, leads_int1a, and_true]
    exact m.hideEtherboot_int15
  · rw [hookPxeStack_active hstack hst, HookedIn, if_neg hst, if_neg hst]
    exact ⟨rfl, rfl, hstack, Iff.rfl⟩

/-- If the card comes up, it does so unless the record says that it is up. -/
theorem pxeInitialiseNic_spec (hstack : m.stack = some st) (hst : st ≠ canUnload) (d : Driver) :
    ((m.pxeInitialiseNic d).2 = true ↔ (m.Probes st → d.found = true)) ∧
      ((m.pxeInitialiseNic d).2 = true →
        ((m.pxeInitialiseNic d).1.Documented ready ↔
          (if m.Probes st then (m.driven d.probe).Hooked else m.Hooked) ∧ (st = ready → m.nicUp = true))) := by
  by_cases hready : st = ready
  · have heq : m.pxeInitialiseNic d = (m, true) := by simp [pxeInitialiseNic, state, hstack, hready]
    have hno : ¬ m.Probes st := fun h => h.1 hready
    rw [heq, if_neg hno]
    exact ⟨iff_of_true rfl (fun h => absurd h hno),
      fun _ => and_congr_right fun _ => ⟨fun h _ => h, fun h => h hready⟩⟩
  have hcode : ¬ ready.code ≤ m.state.code := by
    cases st <;> simp_all [state, code]
  rw [pxeInitialiseNic, if_neg hcode]
  by_cases hup : m.nicUp = true
  · have hno : ¬ m.Probes st := fun h => by simp [h.2] at hup
    rw [if_pos hup, if_neg hno]
    refine ⟨iff_of_true rfl (fun h => absurd h hno), fun _ => and_congr_right fun _ => ?_⟩
    exact iff_of_true hup (fun h => absurd h hready)
  · have hyes : m.Probes st := ⟨hready, Bool.eq_false_iff.mpr hup⟩
    rw [if_neg hup, if_pos hyes]
    cases hfound : d.found with
    | false => exact ⟨iff_of_false (by simp [ethProbe, hfound]) (fun h => by simpa using h hyes),
        fun h => by simp [ethProbe, hfound] at h⟩
    | true =>
      have heq : (let r := m.ethProbe d; if r.2 = false then r else ({ r.1 with stack := some ready }, true)) =
          ({ m.driven d.probe with nicUp := true, stack := some ready }, true) := by simp [ethProbe, hfound]
      rw [heq]
      exact ⟨iff_of_true rfl (fun _ => rfl),
        fun _ => and_congr_right fun _ => iff_of_true rfl (fun h => absurd h hready)⟩

theorem pxeShutdownNic_eq (hstack : m.stack = some st) (d : Driver) :
    m.pxeShutdownNic d = ({ m.rested st d with stack := some (if st = ready then midway else st) }, true) := by
  by_cases hready : st = ready
  · rw [rested, if_pos hready, if_pos hready]
    simp [pxeShutdownNic, state, hstack, hready, code]
  · have hcode : m.state.code ≤ midway.code := by cases st <;> simp_all [state, code]
    rw [pxeShutdownNic, if_pos hcode, rested, if_neg hready, if_neg hready, ← hstack]

theorem rested_nicUp (m : Machine) (st : StackState) (d : Driver) :
    (m.rested st d).nicUp = false ↔ (st ≠ ready → m.nicUp = false) := by
  unfold rested ethDisable
  by_cases hready : st = ready <;> by_cases hup : m.nicUp = true <;> simp [hready, hup]

theorem unhideEtherboot_spec (m : Machine) :
    (m.unhideEtherboot.2 = true ↔ m.mangling = false ∨ m.int15.head? = m.mangler.map .mangler) ∧
      m.unhideEtherboot.1.int1a = m.int1a ∧ m.unhideEtherboot.1.nicUp = m.nicUp ∧
      (m.unhideEtherboot.2 = true →
        m.unhideEtherboot.1.int15 = if m.mangling then m.interceptedInt15 else m.int15) := by
  unfold unhideEtherboot
  cases hm : m.mangling with
  | false => simp
  | true => by_cases hhead : m.int15.head? = m.mangler.map .mangler <;> simp [hhead]

theorem unhookPxeStack_inactive (hstack : m.stack = some canUnload) : m.unhookPxeStack = (m, true) := by
  simp [unhookPxeStack, hstack, code]

theorem unhookPxeStack_active (hstack : m.stack = some st) (hst : st ≠ canUnload) :
    m.unhookPxeStack =
      if { m with int1a := m.interceptedInt1a }.unhideEtherboot.2 then
        ({ { m with int1a := m.interceptedInt1a }.unhideEtherboot.1 with stack := some canUnload }, true)
      else { m with int1a := m.interceptedInt1a }.unhideEtherboot := by
  have hcode : ¬ st.code ≤ canUnload.code := by cases st <;> simp_all [code]
  simp only [unhookPxeStack, hstack, if_neg hcode]

/-- INT 1A is restored in any case, and the record is changed only if INT 15 is restored too. -/
theorem unhookPxeStack_spec (hstack : m.stack = some st) :
    (m.unhookPxeStack.2 = true ↔
        st = canUnload ∨ m.mangling = false ∨ m.int15.head? = m.mangler.map .mangler) ∧
      (m.unhookPxeStack.2 = true →
        (m.unhookPxeStack.1.Documented canUnload ↔ m.UnhookedIn st ∧ m.nicUp = false)) := by
  by_cases hst : st = canUnload
  · subst hst
    rw [unhookPxeStack_inactive hstack, UnhookedIn, if_pos rfl]
    exact ⟨iff_of_true rfl (.inl rfl), fun _ => Iff.rfl⟩
  · obtain ⟨hres, h1a, hnic, h15⟩ := unhideEtherboot_spec { m with int1a := m.interceptedInt1a }
    rw [unhookPxeStack_active hstack hst, UnhookedIn, if_neg hst, or_iff_right hst]
    by_cases hok : { m with int1a := m.interceptedInt1a }.unhideEtherboot.2 = true
    · rw [if_pos hok]
      refine ⟨iff_of_true rfl (hres.mp hok), fun _ => ?_⟩
      simp only [Documented, Unhooked, h1a, hnic, h15 hok]
    · rw [if_neg hok]
      exact ⟨hres, fun h => absurd h hok⟩

theorem ensurePxeState_none (h : m.stack = none) (d : Driver) (wanted : StackState) :
    m.ensurePxeState d wanted = (m, false) := if_pos h

theorem ensurePxeState_canUnload (h : m.stack ≠ none) (d : Driver) :
    m.ensurePxeState d canUnload = ((m.pxeShutdownNic d).1.unhookPxeStack.1,
      (m.pxeShutdownNic d).2 && (m.pxeShutdownNic d).1.unhookPxeStack.2) := if_neg h

/-- **`ensure_pxe_state`.** It can be told beforehand whether the state is ensured, and whether it is as
    documented then. -/
theorem ensurePxeState_spec (hstack : m.stack = some st) (d : Driver) (wanted : StackState) :
    ((m.ensurePxeState d wanted).2 = true ↔ m.CanEnsure st d wanted) ∧
      ((m.ensurePxeState d wanted).2 = true →
        ((m.ensurePxeState d wanted).1.Documented wanted ↔ m.Agrees st d wanted)) := by
  have hsome : m.stack ≠ none := by rw [hstack]; exact Option.some_ne_none st
  cases wanted with
  | canUnload =>
    rw [ensurePxeState_canUnload hsome, pxeShutdownNic_eq hstack, Bool.true_and]
    obtain ⟨hres, hdoc⟩ := unhookPxeStack_spec
      (m := { m.rested st d with stack := some (if st = ready then midway else st) }) rfl
    have hcode : (if st = ready then midway else st) = canUnload ↔ st = canUnload := by
      cases st <;> decide
    rw [hcode] at hres
    refine ⟨hres, fun h => (hdoc h).trans (and_congr ?_ (rested_nicUp m st d))⟩
    simp only [UnhookedIn, hcode, Unhooked]
  | midway =>
    have heq : m.ensurePxeState d midway = ((m.hookPxeStack.1.pxeShutdownNic d).1,
        m.hookPxeStack.2 && (m.hookPxeStack.1.pxeShutdownNic d).2 && true) := if_neg hsome
    obtain ⟨hres, hnic, hst, hhooked⟩ := hookPxeStack_spec hstack
    rw [heq, pxeShutdownNic_eq hst, hres]
    refine ⟨iff_of_true rfl trivial, fun _ => and_congr ?_ ?_⟩
    · by_cases hready : st = ready
      · subst hready
        rw [hookPxeStack_active hstack (by decide)]
        exact Iff.rfl
      · have hne : (if st = canUnload then midway else st) ≠ ready := by cases st <;> simp_all
        rw [rested, rested, if_neg hne, if_neg hready]
        exact hhooked
    · have hcode : (if st = canUnload then midway else st) ≠ ready ↔ st ≠ ready := by
        cases st <;> decide
      refine (rested_nicUp _ _ d).trans ?_
      rw [hcode, hnic]
  | ready =>
    have heq : m.ensurePxeState d ready = ((m.hookPxeStack.1.pxeInitialiseNic d).1,
        m.hookPxeStack.2 && (m.hookPxeStack.1.pxeInitialiseNic d).2 && true) := if_neg hsome
    obtain ⟨hres, hnic, hst, hhooked⟩ := hookPxeStack_spec hstack
    have hcode : (if st = canUnload then midway else st) = ready ↔ st = ready := by cases st <;> decide
    obtain ⟨hfound, hdoc⟩ := pxeInitialiseNic_spec hst (by cases st <;> decide) d
    have hprobes : m.hookPxeStack.1.Probes (if st = canUnload then midway else st) ↔ m.Probes st := by
      rw [Probes, Probes, ne_eq, hcode, hnic]
    rw [heq, hres, Bool.true_and, Bool.and_true]
    refine ⟨hfound.trans (by rw [hprobes]; rfl), fun h => (hdoc h).trans ?_⟩
    simp only [hprobes, hcode, hnic, hhooked]
    exact Iff.rfl

end Machine

end Pxe
