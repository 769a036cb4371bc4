import Etherboot.Pxe.Stack

set_option autoImplicit false

/-! # The calls of the PXE API and the state of the stack

Nearly every call of the API ensures a state of the stack first. A state that `ensure_pxe_state` reports is as
documented exactly if the record agreed with the machine where the record is relied on. The record is wrong
about the card if the card is started or stopped outside of the API, about INT 1A after INT 15 could not be
restored, and about INT 15 after the UNDI driver has had a loader called. -/

namespace Pxe

open StackState

namespace Machine

/-- What is ensured is as documented exactly if the record agrees with the machine. -/
theorem documented_iff (m : Machine) (d : Driver) (wanted : StackState) :
    ((m.ensurePxeState d wanted).2 = true → (m.ensurePxeState d wanted).1.Documented wanted) ↔
      ∀ st, m.stack = some st → m.CanEnsure st d wanted → m.Agrees st d wanted := by
  cases hstack : m.stack with
  | none =>
    rw [ensurePxeState_none hstack]
    exact ⟨fun _ st h => absurd h (by simp), fun _ h => absurd h Bool.false_ne_true⟩
  | some st =>
    obtain ⟨hres, hdoc⟩ := ensurePxeState_spec hstack d wanted
    constructor
    · intro h st' hst' hcan
      cases hst'
      exact (hdoc (hres.mpr hcan)).mp (h (hres.mpr hcan))
    · intro h hok
      exact (hdoc hok).mpr (h st rfl (hres.mp hok))

theorem good_iff (m : Machine) (e : Event) : m.Good e ↔ m.Condition e := by
  cases e with
  | ensure wanted d => exact m.documented_iff d wanted
  | remove d => exact m.documented_iff d canUnload
  | _ => exact Iff.rfl

end Machine

/-! ## The calls -/

/-- What a call does to the stack and the card. If a state is not ensured, the call ends there, unless it
    does not look at the result. -/
inductive Act where
  | ensure (wanted : StackState)
  | ensureOrNot (wanted : StackState)
  | cleanup
  | install
  deriving DecidableEq, Repr

namespace Opcode

end Opcode

namespace Machine

def run (m : Machine) (es : List Event) : Machine := es.foldl step m

/-- Before there is a stack. The vectors lead to the handlers of others. -/
def boot (int15 int1a : List Nat) (nicUp : Bool) : Machine where
  stack := none
  mangler := none
  mangling := false
  int15 := int15.map .other
  interceptedInt15 := []
  int1a := int1a.map .other
  interceptedInt1a := []
  nicUp := nicUp

instance (m : Machine) : (e : Event) → Decidable (m.Good e)
  | .ensure .. => inferInstanceAs (Decidable (_ → _))
  | .remove _ => inferInstanceAs (Decidable (_ → _))
  | .install _ | .start _ | .cleanup _ | .image _ => inferInstanceAs (Decidable True)

/-- A driver that leaves the vectors alone and finds its card. -/
def plainDriver : Driver := ⟨[], true, []⟩

/-- No driver has code of others run, and images leave it at whether the vectors lead to Etherboot. -/
def Polite (m : Machine) : Event → Prop
  | .ensure _ d | .remove d | .start d | .cleanup d => d.probe = [] ∧ d.stop = []
  | .install _ => True
  | .image (.int15 c) => Leads c ↔ Leads m.int15
  | .image (.int1a c) => Leads c ↔ Leads m.int1a

/-- The record says whether Etherboot is hidden, and what has been saved of the vectors does not lead to
    Etherboot. It does not say that INT 1A leads there. -/
structure Inv (m : Machine) : Prop where
  active : m.mangling = true ↔ m.state ≠ canUnload
  hidden : m.mangling = true → Leads m.int15 ∧ ¬ Leads m.interceptedInt15 ∧ ¬ Leads m.interceptedInt1a
  plain : m.mangling = false → m.Unhooked
  mangler : m.stack ≠ none → m.mangler ≠ none

theorem boot_inv (int15 int1a : List Nat) (nicUp : Bool) : (boot int15 int1a nicUp).Inv := by
  have hforeign (ns : List Nat) : ¬ Leads (ns.map .other) := by simp [Leads, Handler.ours]
  exact ⟨by simp [boot, state], fun h => absurd h Bool.false_ne_true, fun _ => ⟨hforeign _, hforeign _⟩,
    fun h => absurd rfl h⟩

section Kept

variable {m : Machine} {d : Driver}

section

variable (hi : m.Inv)

include hi

theorem Inv.setNic (up : Bool) : Inv { m with nicUp := up } :=
  ⟨hi.active, hi.hidden, hi.plain, hi.mangler⟩

/-- Between the two states with hooked vectors. -/
theorem Inv.setState (hst : m.state ≠ canUnload) {st' : StackState} (hst' : st' ≠ canUnload) :
    Inv { m with stack := some st' } := by
  have hsome : m.stack ≠ none := fun h => hst (by rw [state, h]; rfl)
  exact ⟨iff_of_true (hi.active.mpr hst) hst', hi.hidden, hi.plain, fun _ => hi.mangler hsome⟩

theorem Inv.ethDisable (hd : d.stop = []) : (m.ethDisable d).Inv := by
  rw [Machine.ethDisable, hd]
  split
  · exact hi.setNic false
  · exact hi

theorem Inv.inactive (hst : m.state = canUnload) : m.mangling = false := by
  rw [← Bool.not_eq_true, hi.active]
  exact not_not.mpr hst

theorem Inv.hook (hsome : m.stack ≠ none) :
    m.hookPxeStack.1.Inv ∧ m.hookPxeStack.1.state ≠ canUnload := by
  obtain ⟨st, hstack⟩ := Option.ne_none_iff_exists'.mp hsome
  have hstate : m.state = st := by rw [state, hstack]; rfl
  by_cases hst : st = canUnload
  · subst hst
    have hplain := hi.inactive hstate
    obtain ⟨copy, hcopy⟩ := Option.ne_none_iff_exists'.mp (hi.mangler hsome)
    obtain ⟨h15, h1a⟩ := hi.plain hplain
    have heq : m.hookPxeStack.1 = { m with
        interceptedInt15 := m.int15, int15 := .mangler copy :: m.int15, mangling := true,
        interceptedInt1a := m.int1a, int1a := .int1a :: m.int1a, stack := some midway } := by
      simp [hookPxeStack_inactive hstack, hideEtherboot, hplain, hcopy]
    rw [heq]
    refine ⟨⟨iff_of_true rfl (by simp [state]), fun _ => ⟨rfl, h15, h1a⟩,
      fun h => absurd h.symm Bool.false_ne_true, fun _ => hi.mangler hsome⟩, by simp [state]⟩
  · rw [hookPxeStack_active hstack hst]
    exact ⟨hi, hstate ▸ hst⟩

theorem Inv.unhook :
    m.unhookPxeStack.1.Inv ∧ (m.unhookPxeStack.2 = true → m.unhookPxeStack.1.state = canUnload) := by
  cases hstack : m.stack with
  | none =>
    have heq : m.unhookPxeStack = (m, false) := by simp [unhookPxeStack, hstack]
    rw [heq]
    exact ⟨hi, fun h => by cases h⟩
  | some st =>
    by_cases hst : st = canUnload
    · rw [hst] at hstack
      rw [unhookPxeStack_inactive hstack]
      exact ⟨hi, fun _ => by rw [state, hstack]; rfl⟩
    have hactive := hi.active.mpr (by rwa [state, hstack])
    have hmangler := hi.mangler (by rw [hstack]; exact Option.some_ne_none st)
    obtain ⟨h15, hsaved15, hsaved1a⟩ := hi.hidden hactive
    rw [unhookPxeStack_active hstack hst]
    by_cases hhead : m.int15.head? = m.mangler.map .mangler
    · have heq : { m with int1a := m.interceptedInt1a }.unhideEtherboot = ({ m with
          int1a := m.interceptedInt1a, int15 := m.interceptedInt15, mangling := false }, true) := by
        simp [unhideEtherboot, hactive, hhead]
      rw [heq, if_pos rfl]
      exact ⟨⟨by simp [state], fun h => absurd h Bool.false_ne_true, fun _ => ⟨hsaved15, hsaved1a⟩,
        fun _ => hmangler⟩, fun _ => rfl⟩
    · have heq : { m with int1a := m.interceptedInt1a }.unhideEtherboot =
          ({ m with int1a := m.interceptedInt1a }, false) := by
        simp [unhideEtherboot, hactive, hhead]
      rw [heq, if_neg Bool.false_ne_true]
      exact ⟨⟨hi.active, hi.hidden, fun h => absurd (hactive.symm.trans h) (by decide), fun _ => hmangler⟩,
        fun h => by cases h⟩

theorem Inv.shutdown (hd : d.stop = []) : (m.pxeShutdownNic d).1.Inv := by
  unfold pxeShutdownNic
  split
  · exact hi
  · next hcode =>
    have hstate : (m.ethDisable d).state ≠ canUnload := by
      have hne : m.state ≠ canUnload := fun h => hcode (by rw [h]; decide)
      rw [Machine.ethDisable, hd]
      split
      · exact hne
      · exact hne
    exact (hi.ethDisable hd).setState hstate (by decide)

theorem Inv.initialise (hst : m.state ≠ canUnload) (hd : d.probe = []) :
    (m.pxeInitialiseNic d).1.Inv := by
  unfold pxeInitialiseNic
  split
  · exact hi
  · split
    · exact hi.setState hst (by decide)
    · simp only [ethProbe, hd]
      split
      · exact hi.setNic d.found
      · exact (hi.setNic d.found).setState hst (by decide)

theorem Inv.ensure (hd : d.probe = [] ∧ d.stop = []) (wanted : StackState) :
    (m.ensurePxeState d wanted).1.Inv := by
  by_cases hnone : m.stack = none
  · rw [ensurePxeState_none hnone]
    exact hi
  rw [ensurePxeState, if_neg hnone]
  obtain ⟨hhook, hst⟩ := hi.hook hnone
  cases wanted with
  | canUnload => exact (hi.shutdown hd.2).unhook.1
  | midway => exact hhook.shutdown hd.2
  | ready => exact hhook.initialise hst hd.1

theorem Inv.install (base : Option Nat) : (m.installPxeStack base).Inv := by
  unfold installPxeStack
  cases hstack : m.stack with
  | some st => exact hi
  | none =>
    cases base with
    | none => exact hi
    | some copy =>
      have hplain := hi.inactive (by rw [state, hstack]; rfl)
      simp only [Option.isSome_none, Bool.false_eq_true, if_false, installE820mangler, hplain]
      exact ⟨iff_of_false Bool.false_ne_true (not_not.mpr rfl), fun h => absurd h Bool.false_ne_true,
        fun _ => hi.plain hplain, fun _ => Option.some_ne_none copy⟩

theorem Inv.remove (hd : d.probe = [] ∧ d.stop = []) : (m.removePxeStack d).Inv := by
  have hinv := hi.ensure hd canUnload
  rw [removePxeStack]
  split
  · next hok =>
    have hsome : m.stack ≠ none := fun h => by simp [ensurePxeState_none h] at hok
    rw [ensurePxeState_canUnload hsome] at hok hinv ⊢
    have hstate := (hi.shutdown hd.2).unhook.2 (Bool.and_eq_true_iff.mp hok).2
    have hplain := hinv.inactive hstate
    exact ⟨iff_of_false (Bool.eq_false_iff.mp hplain) (not_not.mpr rfl), hinv.hidden, hinv.plain,
      fun h => absurd rfl h⟩
  · exact hinv

theorem Inv.image {w : Write} (h : m.Polite (.image w)) : (m.write w).Inv := by
  cases w with
  | int15 c =>
    exact ⟨hi.active, fun hm => ⟨h.mpr (hi.hidden hm).1, (hi.hidden hm).2⟩,
      fun hm => ⟨fun hc => (hi.plain hm).1 (h.mp hc), (hi.plain hm).2⟩, hi.mangler⟩
  | int1a c =>
    exact ⟨hi.active, hi.hidden, fun hm => ⟨(hi.plain hm).1, fun hc => (hi.plain hm).2 (h.mp hc)⟩, hi.mangler⟩

theorem Inv.step {e : Event} (h : m.Polite e) : (m.step e).Inv := by
  cases e with
  | ensure wanted d => exact hi.ensure h wanted
  | install base => exact hi.install base
  | remove d => exact hi.remove h
  | start d =>
    simp only [Machine.step, ethProbe, h.1]
    exact hi.setNic d.found
  | cleanup d => exact hi.ethDisable h.2
  | image w => exact hi.image h

end

end Kept

/-- **Nothing is left behind.** In polite company, whatever is called and in which order: without a stack, or
    with one recorded as `CAN_UNLOAD`, no vector leads to Etherboot; in the other states INT 15 does, and the
    vectors saved for unhooking do not lead back to it. -/
theorem unloadable_unhooked (int15 int1a : List Nat) (nicUp : Bool) (es : List Event)
    (h : AllSteps step Polite (boot int15 int1a nicUp) es) :
    let m := (boot int15 int1a nicUp).run es
    (m.state = canUnload → m.Unhooked) ∧ (m.state ≠ canUnload →
      Leads m.int15 ∧ ¬ Leads m.interceptedInt15 ∧ ¬ Leads m.interceptedInt1a) := by
  intro m
  have hi : m.Inv := h.foldl_inv Inv (fun _ _ hi hp => hi.step hp) (boot_inv int15 int1a nicUp)
  exact ⟨fun hst => hi.plain (hi.inactive hst), fun hst => hi.hidden (hi.active.mpr hst)⟩

theorem unloaded_unhooked :
    let m := (boot [0] [0] true).run [.install (some 0x9000), .ensure ready plainDriver,
      .image (.int1a [.other 1, .int1a, .other 0]), .image (.int1a [.int1a, .other 0]),
      .ensure canUnload plainDriver]
    m.state = canUnload ∧ m.Unhooked :=
  ⟨by decide, (unloadable_unhooked [0] [0] true _ (by
    simp only [AllSteps, Polite]
    decide)).1 (by decide)⟩

end Machine

end Pxe
