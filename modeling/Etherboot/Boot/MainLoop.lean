import Etherboot.Lib.Transition
import Etherboot.Pci.Scan
import Mathlib.Tactic.Ring

set_option autoImplicit false

/-! # The boot loop (`main`, `main_loop` and `ask_boot` in `core/main.c`)

`main_loop` is called with a state and returns the next one: ask what to boot from, find the next device,
probe it, load its configuration, load an image from it. An image that returns, a loader that fails and a key
that is pressed all end in a `longjmp` back to `main`, which calls `main_loop` with the value passed. The rest
of the state is in static variables: which boot order and which position in it, and the device with its
functions, an entry of the table `operations`. How long that table is depends on the configuration.

What a call of `main_loop` does with the table and the device is recorded beside the state. In every call the
table is used inside its bounds, and an image is loaded only from a device that has been probed, exactly if
every device type that the boot order names, as far as it is followed, is in the table. -/

namespace Boot

open Pci (probeFirst probeNext probeAwake probeFailed)

/-! ## Configuration -/

def bootNic : Nat := 0
def bootDisk : Nat := 1
def bootFloppy : Nat := 2
def bootNothing : Nat := 3
def bootFailsafe : Nat := 8
def bootBits : Nat := 4
def bootMask : Nat := 2 ^ bootBits - 1
def bootTypeMask : Nat := 2 ^ (bootBits - 1) - 1
def maxBootEntries : Int := 3

/-- What is set when the program is built. `askBoot` is `ASK_BOOT` if it is defined and not negative. -/
structure Config where
  bootFirst : Nat
  bootSecond : Nat
  bootThird : Nat
  bootIndex : Nat
  askBoot : Option Nat
  linuxBios : Bool
  exitIfNoOffer : Bool
  deriving DecidableEq, Repr

inductive Dev where
  | nic
  | disk
  deriving DecidableEq, Repr

/-- `operations[]`, each entry with its device. -/
def operations (cfg : Config) : List Dev :=
  if cfg.bootFirst = bootDisk ∨ cfg.bootFirst = bootFloppy ∨ cfg.bootSecond = bootDisk ∨
      cfg.bootSecond = bootFloppy ∨ cfg.bootThird = bootDisk ∨ cfg.bootThird = bootFloppy then
    [.nic, .disk, .disk]
  else [.nic]

/-- `DEFAULT_BOOT_ORDER` -/
def defaultBootOrder (cfg : Config) : Nat :=
  ((cfg.bootFirst <<< (0 * bootBits)) ||| (cfg.bootSecond <<< (1 * bootBits)) |||
    (cfg.bootThird <<< (2 * bootBits)) ||| (bootNothing <<< (3 * bootBits))) % 2 ^ 32

/-! ## Asking -/

/-- One device, and nothing behind it. -/
def only (type : Nat) : Nat := (type <<< (0 * bootBits)) ||| (bootNothing <<< (1 * bootBits))

/-- The loop of `ask_boot`: a key, or no key in time. There is no answer yet if no key is of use. -/
def answer (order : Nat × Nat) (seconds : Nat) : List (Option UInt8) → Option (Nat × Nat)
  | [] => none
  | key :: keys =>
    let c : UInt8 := match key with
      | none => if seconds > 0 then 10 else 0
      | some c => if 97 ≤ c ∧ c ≤ 122 then c &&& 0x5f else c
    if c = 81 then some (bootNothing, 0)
    else if c = 10 then some order
    else if c = 78 then some (only bootNic, 0)
    else if c = 68 then some (only bootDisk, 0)
    else if c = 70 then some (only bootFloppy, 0)
    else answer order seconds keys

/-- `ask_boot`: the order and the index. `stored` is what `get_boot_order` returns. -/
def askBoot (cfg : Config) (stored : Nat × Nat) (keys : List (Option UInt8)) : Option (Nat × Nat) :=
  let order := if cfg.linuxBios then stored else (defaultBootOrder cfg, cfg.bootIndex)
  match cfg.askBoot with
  | none => some order
  | some seconds => answer order seconds keys

/-! ## The loop -/

/-- What a function of a driver returns, or that a key has been pressed, which ends everything with -1
    or -3. -/
inductive Result where
  | value (r : Int)
  | interrupt (finish : Bool)
  deriving DecidableEq, Repr

def interrupted (finish : Bool) : Int := if finish then -3 else -1

/-- What a function returns, or the value of the `longjmp` in it. -/
inductive Load where
  | returned
  | jumped (v : Int)
  deriving DecidableEq, Repr

/-- What comes from outside in one call of `main_loop`, as far as the call gets there. -/
structure Inputs where
  awake : Result
  relocated : Bool
  stored : Nat × Nat
  keys : List (Option UInt8)
  floppy : Bool
  sleep : Option Bool
  probe : Result
  typeIndex : UInt32
  configuration : Result
  load : Load
  cleaned : Bool

/-- The state, the static variables, and the fields of `*dev`. `ops` is an index of the table. Not in the
    source: `worked`, that the last probe of the device has worked. -/
structure Loop where
  state : Int
  order : Nat
  bootIndex : Nat
  dev : Option Dev
  ops : Option Nat
  type : Nat
  i : Int
  initialized : Bool
  firsttime : Bool
  howProbe : Int
  devType : Nat
  failsafe : Bool
  typeIndex : UInt32
  worked : Bool
  deriving DecidableEq, Repr

inductive Fn where
  | probe
  | loadConfiguration
  | load
  deriving DecidableEq, Repr

/-- An entry of the table is taken, or one of its functions is called for the device. -/
inductive Use where
  | entry (index : Nat)
  | call (fn : Fn) (ops : Option Nat) (dev : Option Dev) (worked : Bool)
  deriving DecidableEq, Repr

namespace Loop

variable (cfg : Config) (s : Loop) (inp : Inputs)

def call (fn : Fn) : Use := .call fn s.ops s.dev s.worked

/-- `dev->how_probe = ops->probe(dev)` -/
def probed (r : Int) : Loop := { s with howProbe := r, worked := decide (r ≠ probeFailed) }

/-- The first part of `main_loop`: the device is brought up again after an image. -/
def wake : Loop × List Use :=
  if s.initialized then (s, [])
  else
    let s := { s with initialized := true }
    if s.dev ≠ none ∧ (1 : Int) ≤ s.state ∧ s.state ≤ (2 : Int) then
      match inp.awake with
      | .value r =>
        ({ s.probed r with state := if r = probeFailed then -1 else s.state }, [s.call .probe])
      -- `main` calls `main_loop` with the value at once, which gets here again
      | .interrupt finish =>
        ({ s with state := interrupted finish, howProbe := probeAwake, worked := false }, [s.call .probe])
    else (s, [])

/-- `cleanup` -/
def cleanup : Loop := { s with initialized := false }

/-- `exit` -/
def exit : Loop := { s with state := 255 }

/-- The end of `case 0`. -/
def begin (floppy : Bool) (order : Nat × Nat) : Loop :=
  let s := { s with i := -1, dev := none, order := order.1, bootIndex := order.2 }
  if floppy then s.exit else { s with state := 4 }

/-- `case 0` -/
def start : Loop :=
  if s.firsttime ∧ inp.relocated then { s.cleanup with state := 256 }
  else if ¬ s.firsttime ∧ cfg.exitIfNoOffer then s.cleanup.exit
  else
    match askBoot cfg inp.stored inp.keys with
    | none => s
    | some order =>
      { s with firsttime := false, initialized := if s.firsttime then false else s.initialized }.begin
        inp.floppy order

/-- The entry of the boot order at position `i`. -/
def entryAt (order : Nat) (i : Int) : Nat := (order >>> (i.toNat * bootBits)) &&& bootMask

/-- `case 4`, if there is no device: the next device type. -/
def advance : Loop × List Use :=
  let i := s.i + 1
  let boot := entryAt s.order i
  let type := if i ≥ maxBootEntries then bootNothing else boot &&& bootTypeMask
  let s := { s with i := i, type := type }
  if i = 0 ∧ type = bootNothing then (s.exit, [])
  else if type ≥ bootNothing then
    match inp.sleep with
    | none => ({ s with state := 0 }, [])
    | some finish => ({ s with state := interrupted finish }, [])
  else
    ({ s with
      ops := some type, dev := (operations cfg)[type]?, howProbe := probeFirst, devType := type,
      failsafe := decide (boot &&& bootFailsafe ≠ 0), typeIndex := 0, worked := false, state := 3 },
      [.entry type])

/-- `case 4` -/
def next : Loop × List Use :=
  let s := s.cleanup
  if s.dev = none then s.advance cfg inp else ({ s with howProbe := probeNext, state := 3 }, [])

/-- `case 3` -/
def probe : Loop × List Use :=
  match inp.probe with
  | .interrupt finish => ({ s with state := interrupted finish, worked := false }, [s.call .probe])
  | .value r =>
    let t := { s.probed r with typeIndex := inp.typeIndex }
    if r = probeFailed then ({ t with dev := none, state := 4 }, [s.call .probe])
    else if t.bootIndex ≠ 0 ∧ t.i = (0 : Int) ∧ t.bootIndex ≠ t.typeIndex.toNat then
      ({ t with state := 4 }, [s.call .probe])
    else ({ t with state := 2 }, [s.call .probe])

/-- `case 2` -/
def loadConfiguration : Loop × List Use :=
  match inp.configuration with
  | .interrupt finish => ({ s with state := interrupted finish }, [s.call .loadConfiguration])
  | .value r => ({ s with state := if r ≥ 0 then 1 else -1 }, [s.call .loadConfiguration])

/-- `case 1`. The image may have been started after `cleanup`; a `longjmp` with 0 is one with 1. -/
def load : Loop × List Use :=
  let t := if inp.cleaned then s.cleanup else s
  match inp.load with
  | .returned => ({ t with state := -1 }, [s.call .load])
  | .jumped v => ({ t with state := if v = 0 then 1 else v }, [s.call .load])

/-- `default` -/
def abort : Loop :=
  { s with state := if s.type ≥ bootNothing ∨ s.i ≥ maxBootEntries then 0 else 4 }

/-- `switch(state)` -/
def switch : Loop × List Use :=
  if s.state = 0 then (s.start cfg inp, [])
  else if s.state = 4 then s.next cfg inp
  else if s.state = 3 then s.probe inp
  else if s.state = 2 then s.loadConfiguration inp
  else if s.state = 1 then s.load inp
  else if s.state = 256 then ({ s with state := 0 }, [])
  else if s.state = -3 then ({ s with i := maxBootEntries, type := bootNothing }.abort, [])
  else (s.abort, [])

/-- A round of the loop of `main`, with what it uses. -/
def round : Loop × List Use :=
  if s.state = 255 then (s, [])
  else
    let t := (s.wake inp).1.switch cfg inp
    (t.1, (s.wake inp).2 ++ t.2)

def step : Loop := (s.round cfg inp).1

/-- When `main` is entered. -/
def init : Loop where
  state := 0
  order := 0
  bootIndex := 0
  dev := none
  ops := none
  type := 0
  i := 0
  initialized := false
  firsttime := true
  howProbe := 0
  devType := 0
  failsafe := false
  typeIndex := 0
  worked := false

end Loop

/-! ## What is used -/

/-- An entry is in the table. A function that is called is in the table, and the device is the one that
    belongs to it; only a device whose last probe has worked is loaded from. -/
def Use.Ok (cfg : Config) : Use → Prop
  | .entry index => index < (operations cfg).length
  | .call fn ops dev worked =>
    ∃ k d, ops = some k ∧ (operations cfg)[k]? = some d ∧ dev = some d ∧ (fn ≠ .probe → worked = true)

namespace Loop

variable {cfg : Config} {s : Loop} {inp : Inputs}

def Good (cfg : Config) (s : Loop) (inp : Inputs) : Prop := ∀ u ∈ (s.round cfg inp).2, u.Ok cfg

/-- The next entry of the boot order is in the table, if there is a next entry and it is a device. -/
def NextOk (cfg : Config) (s : Loop) : Prop :=
  s.state = 4 → s.dev = none → s.i + 1 < maxBootEntries →
    entryAt s.order (s.i + 1) &&& bootTypeMask < bootNothing →
    entryAt s.order (s.i + 1) &&& bootTypeMask < (operations cfg).length

def Condition (cfg : Config) (s : Loop) (_ : Inputs) : Prop := s.NextOk cfg

/-- A device belongs to its functions, which are in the table; there is one when it is to be probed, and its
    probe has worked when it is to be loaded from. -/
structure Inv (cfg : Config) (s : Loop) : Prop where
  device : ∀ d, s.dev = some d → ∃ k, s.ops = some k ∧ (operations cfg)[k]? = some d
  probing : s.state = 3 → s.dev ≠ none
  loading : s.state = 1 ∨ s.state = 2 → s.dev ≠ none ∧ s.worked = true

theorem init_inv (cfg : Config) : init.Inv cfg where
  device := fun d h => by cases h
  probing := fun h => by cases h
  loading := fun h => absurd h (by decide)

/-- A state in which no function is called for the device. -/
def Rests (state : Int) : Prop := state ≠ 3 ∧ state ≠ 1 ∧ state ≠ 2
  deriving Decidable

theorem Inv.rest (hi : s.Inv cfg) {t : Loop} (hdev : t.dev = s.dev) (hops : t.ops = s.ops)
    (hrest : Rests t.state) : t.Inv cfg where
  device := by rw [hdev, hops]; exact hi.device
  probing := fun h => absurd h hrest.1
  loading := fun h => (h.elim hrest.2.1 hrest.2.2).elim

theorem Inv.of_none {t : Loop} (hdev : t.dev = none) (hrest : Rests t.state) : t.Inv cfg where
  device := fun d h => by cases (hdev.symm.trans h)
  probing := fun h => absurd h hrest.1
  loading := fun h => (h.elim hrest.2.1 hrest.2.2).elim

theorem call_ok (hi : s.Inv cfg) (hdev : s.dev ≠ none) {fn : Fn} (hworked : fn ≠ .probe → s.worked = true) :
    ∀ u ∈ [s.call fn], u.Ok cfg := by
  intro u hu
  rw [List.mem_singleton.mp hu]
  obtain ⟨d, hd⟩ := Option.ne_none_iff_exists'.mp hdev
  obtain ⟨k, hops, hk⟩ := hi.device d hd
  exact ⟨k, d, hops, hk, hd, hworked⟩

theorem interrupted_rests (finish : Bool) : Rests (interrupted finish) := by
  cases finish with
  | true => decide
  | false => decide

theorem nil_ok : ∀ u ∈ ([] : List Use), u.Ok cfg := fun _ h => by cases h

/-! ## The cases of the switch -/

theorem start_inv (hi : s.Inv cfg) (inp : Inputs) : (s.start cfg inp).Inv cfg := by
  unfold start
  split
  · exact hi.rest rfl rfl (by decide : Rests 256)
  split
  · exact hi.rest rfl rfl (by decide : Rests 255)
  split
  · exact hi
  unfold begin
  dsimp only
  split
  · exact .of_none rfl (by decide : Rests 255)
  · exact .of_none rfl (by decide : Rests 4)

theorem advance_spec (hstate : s.state = 4) (hdev : s.dev = none) (inp : Inputs) :
    ((∀ u ∈ (s.advance cfg inp).2, u.Ok cfg) ↔ s.NextOk cfg) ∧
      (s.NextOk cfg → (s.advance cfg inp).1.Inv cfg) := by
  unfold advance
  dsimp only
  by_cases hlast : s.i + 1 ≥ maxBootEntries
  · have hcond : s.NextOk cfg := fun _ _ h => absurd h (Int.not_lt.mpr hlast)
    have hne : ¬ (s.i + 1 = 0 ∧ bootNothing = bootNothing) := by
      rintro ⟨hzero, -⟩
      rw [hzero] at hlast
      cases hlast
    rw [if_pos hlast, if_neg hne, if_pos (Nat.le_refl _)]
    split
    · exact ⟨iff_of_true nil_ok hcond, fun _ => .of_none hdev (by decide : Rests 0)⟩
    · next finish _ =>
      exact ⟨iff_of_true nil_ok hcond, fun _ => .of_none hdev (interrupted_rests finish)⟩
  rw [if_neg hlast]
  by_cases hnothing : entryAt s.order (s.i + 1) &&& bootTypeMask < bootNothing
  · have hne : ¬ (s.i + 1 = 0 ∧ entryAt s.order (s.i + 1) &&& bootTypeMask = bootNothing) :=
      fun h => absurd h.2 hnothing.ne
    have hcond : s.NextOk cfg ↔ entryAt s.order (s.i + 1) &&& bootTypeMask < (operations cfg).length :=
      ⟨fun h => h hstate hdev (Int.not_le.mp hlast) hnothing, fun h _ _ _ _ => h⟩
    rw [if_neg hne, if_neg (Nat.not_le.mpr hnothing), hcond]
    constructor
    · exact List.forall_mem_singleton
    · intro hlt
      refine ⟨fun d hd => ⟨_, rfl, hd⟩, fun _ hnone => ?_, fun h => absurd h (by decide : ¬ ((3 : Int) = 1 ∨ (3 : Int) = 2))⟩
      exact absurd hnone (by rw [List.getElem?_eq_getElem hlt]; exact Option.some_ne_none _)
  · have hcond : s.NextOk cfg := fun _ _ _ h => absurd h hnothing
    split
    · exact ⟨iff_of_true nil_ok hcond, fun _ => .of_none hdev (by decide : Rests 255)⟩
    · rw [if_pos (Nat.not_lt.mp hnothing)]
      split
      · exact ⟨iff_of_true nil_ok hcond, fun _ => .of_none hdev (by decide : Rests 0)⟩
      · next finish _ =>
        exact ⟨iff_of_true nil_ok hcond, fun _ => .of_none hdev (interrupted_rests finish)⟩

section

variable (hi : s.Inv cfg)

include hi

theorem next_spec (hstate : s.state = 4) (inp : Inputs) :
    ((∀ u ∈ (s.next cfg inp).2, u.Ok cfg) ↔ s.NextOk cfg) ∧
      (s.NextOk cfg → (s.next cfg inp).1.Inv cfg) := by
  by_cases hdev : s.dev = none
  · have hnext : s.next cfg inp = s.cleanup.advance cfg inp := if_pos hdev
    rw [hnext]
    exact @advance_spec cfg s.cleanup hstate hdev inp
  · have hnext : s.next cfg inp = ({ s.cleanup with howProbe := probeNext, state := 3 }, []) := if_neg hdev
    rw [hnext]
    refine ⟨iff_of_true nil_ok (fun _ h => absurd h hdev), fun _ => ⟨hi.device, fun _ => hdev, fun h => ?_⟩⟩
    exact absurd h (by decide : ¬ ((3 : Int) = 1 ∨ (3 : Int) = 2))

theorem probe_spec (hstate : s.state = 3) (inp : Inputs) :
    (∀ u ∈ (s.probe inp).2, u.Ok cfg) ∧ (s.probe inp).1.Inv cfg := by
  have hdev := hi.probing hstate
  have hcall : ∀ u ∈ [s.call .probe], u.Ok cfg := call_ok hi hdev (fun h => absurd rfl h)
  unfold probe
  split
  · next finish _ => exact ⟨hcall, hi.rest rfl rfl (interrupted_rests finish)⟩
  · next r _ =>
    dsimp only
    split
    · exact ⟨hcall, .of_none rfl (by decide : Rests 4)⟩
    · next hworked =>
      split
      · exact ⟨hcall, hi.rest rfl rfl (by decide : Rests 4)⟩
      · refine ⟨hcall, hi.device, fun h => absurd h (by decide : (2 : Int) ≠ 3), fun _ => ⟨hdev, ?_⟩⟩
        exact decide_eq_true hworked

theorem loadConfiguration_spec (hstate : s.state = 2) (inp : Inputs) :
    (∀ u ∈ (s.loadConfiguration inp).2, u.Ok cfg) ∧ (s.loadConfiguration inp).1.Inv cfg := by
  obtain ⟨hdev, hworked⟩ := hi.loading (.inr hstate)
  have hcall : ∀ u ∈ [s.call .loadConfiguration], u.Ok cfg := call_ok hi hdev (fun _ => hworked)
  unfold loadConfiguration
  split
  · next finish _ => exact ⟨hcall, hi.rest rfl rfl (interrupted_rests finish)⟩
  · refine ⟨hcall, hi.device, fun _ => hdev, fun _ => ⟨hdev, hworked⟩⟩

/-- An image may pass any value: the device that it has come from is still there. -/
theorem load_spec (hstate : s.state = 1) (inp : Inputs) :
    (∀ u ∈ (s.load inp).2, u.Ok cfg) ∧ (s.load inp).1.Inv cfg := by
  obtain ⟨hdev, hworked⟩ := hi.loading (.inl hstate)
  have hcall : ∀ u ∈ [s.call .load], u.Ok cfg := call_ok hi hdev (fun _ => hworked)
  have hclean : ∀ state : Int, { (if inp.cleaned then s.cleanup else s) with state := state }.Inv cfg := by
    intro state
    split
    · exact ⟨hi.device, fun _ => hdev, fun _ => ⟨hdev, hworked⟩⟩
    · exact ⟨hi.device, fun _ => hdev, fun _ => ⟨hdev, hworked⟩⟩
  unfold load
  dsimp only
  split
  · exact ⟨hcall, hclean _⟩
  · exact ⟨hcall, hclean _⟩

theorem abort_inv : s.abort.Inv cfg := by
  refine hi.rest rfl rfl ?_
  show Rests (if _ then 0 else 4)
  split
  · decide
  · decide

theorem switch_spec (inp : Inputs) :
    ((∀ u ∈ (s.switch cfg inp).2, u.Ok cfg) ↔ s.NextOk cfg) ∧
      (s.NextOk cfg → (s.switch cfg inp).1.Inv cfg) := by
  by_cases h4 : s.state = 4
  · have hne : s.state ≠ 0 := by rw [h4]; decide
    unfold switch
    rw [if_neg hne, if_pos h4]
    exact next_spec hi h4 inp
  -- in all other states the uses are right whatever the order is
  have hcond : s.NextOk cfg := fun h => absurd h h4
  suffices hall : (∀ u ∈ (s.switch cfg inp).2, u.Ok cfg) ∧ (s.switch cfg inp).1.Inv cfg from
    ⟨iff_of_true hall.1 hcond, fun _ => hall.2⟩
  unfold switch
  split
  · exact ⟨nil_ok, start_inv hi inp⟩
  split
  · next h => exact probe_spec hi h inp
  split
  · next h => exact loadConfiguration_spec hi h inp
  split
  · next h => exact load_spec hi h inp
  split
  · exact ⟨nil_ok, hi.rest rfl rfl (by decide : Rests 0)⟩
  split
  · refine ⟨nil_ok, abort_inv ⟨hi.device, hi.probing, hi.loading⟩⟩
  · exact ⟨nil_ok, abort_inv hi⟩

/-! ## Rounds -/

/-- The device is brought up again before it is loaded from, or it is given up. -/
theorem wake_spec (inp : Inputs) :
    (∀ u ∈ (s.wake inp).2, u.Ok cfg) ∧ (s.wake inp).1.Inv cfg ∧
      ((s.wake inp).1.NextOk cfg ↔ s.NextOk cfg) := by
  unfold wake
  split
  · exact ⟨nil_ok, hi, Iff.rfl⟩
  dsimp only
  split
  · next h =>
    have hcall : ∀ u ∈ [s.call .probe], u.Ok cfg := call_ok hi h.1 (fun h => absurd rfl h)
    have h4 : s.NextOk cfg := fun hs => absurd (hs ▸ h.2.2) (by decide : ¬ (4 : Int) ≤ 2)
    split
    · next r _ =>
      by_cases hr : r = probeFailed
      · rw [if_pos hr]
        refine ⟨hcall, hi.rest rfl rfl (by decide : Rests (-1)), iff_of_true (fun hs => ?_) h4⟩
        exact absurd hs (by decide : (-1 : Int) ≠ 4)
      · rw [if_neg hr]
        refine ⟨hcall, ⟨hi.device, hi.probing, fun _ => ⟨h.1, decide_eq_true hr⟩⟩, ?_⟩
        exact iff_of_true (fun hs => absurd (hs ▸ h.2.2) (by decide : ¬ (4 : Int) ≤ 2)) h4
    · next finish _ =>
      refine ⟨hcall, hi.rest rfl rfl (interrupted_rests finish), iff_of_true (fun hs => ?_) h4⟩
      cases finish with
      | true => exact absurd hs (by decide : (-3 : Int) ≠ 4)
      | false => exact absurd hs (by decide : (-1 : Int) ≠ 4)
  · exact ⟨nil_ok, ⟨hi.device, hi.probing, hi.loading⟩, Iff.rfl⟩

theorem step_spec (inp : Inputs) :
    (s.Good cfg inp ↔ s.Condition cfg inp) ∧ (s.Condition cfg inp → (s.step cfg inp).Inv cfg) := by
  unfold Good Condition step round
  split
  · next h =>
    refine ⟨iff_of_true nil_ok (fun hs => ?_), fun _ => hi⟩
    cases h.symm.trans hs
  · obtain ⟨hwake, hinv, hnext⟩ := wake_spec hi inp
    obtain ⟨huses, hstep⟩ := switch_spec hinv inp
    rw [List.forall_mem_append, huses, hnext]
    exact ⟨⟨fun h => h.2, fun h => ⟨hwake, h⟩⟩, fun h => hstep (hnext.mpr h)⟩

end

/-- **The boot loop uses its table and its device rightly** in every round, exactly if in every round in which
    it goes on to the next device type, that type is in the table. -/
theorem uses_ok_iff (cfg : Config) (inputs : List Inputs) :
    AllSteps (step cfg) (Good cfg) init inputs ↔ AllSteps (step cfg) (Condition cfg) init inputs :=
  allSteps_iff (Inv cfg) (fun _ inp hi => (step_spec hi inp).1) (fun _ inp hi => (step_spec hi inp).2)
    (init_inv cfg) inputs

end Loop

/-! ## Booting from a disk that is not in the table -/

/-- The configuration as it is delivered: a network boot, and three seconds to choose something else. -/
def defaultConfig : Config := ⟨bootNic, bootNothing, bootNothing, 0, some 3, false, false⟩

/-- Somebody presses the key for the disk. -/
def pressDisk : Inputs where
  awake := .value 0
  relocated := false
  stored := (0, 0)
  keys := [some 100]
  floppy := false
  sleep := none
  probe := .value 0
  typeIndex := 0
  configuration := .value 0
  load := .returned
  cleaned := false

/-- The table has one entry, and the second one is used. -/
theorem disk_outside_table :
    ¬ AllSteps (Loop.step defaultConfig) (Loop.Good defaultConfig) Loop.init [pressDisk, pressDisk] := by
  rintro ⟨-, hgood, -⟩
  have hentry : 1 < (operations defaultConfig).length := hgood (.entry 1) (by decide)
  exact absurd hentry (by decide)

end Boot
