import Mathlib.Data.List.Nodup
import Etherboot.Pci.Enumeration

set_option autoImplicit false

/-! # Every matching pair once

If the probe of every driver fails, `pci_probe` is meant to try every driver with every device that it fits,
once each, and then to report that no device is left. `enumerates_iff` says when it does.

The device function 255 of a bus is never looked at. Drivers that are taken for the class of a device spoil the
search in two ways. One that is followed by another such driver, or by a driver with the id of the device, is
found again from there, and so on for ever. And a driver that is for no class at all is taken for a device
whose class is below 256, as its own class is 0. -/

namespace Pci

open Resume

/-! ## A call in which every probe fails -/

def allFail : Dev → Option Int := fun _ => none

/-- A call that starts from the beginning: the first one, or one for the next device without a last one. -/
def Dev.Starts (dev : Dev) : Prop :=
  dev.howProbe = probeFirst ∨
    dev.howProbe = probeNext ∧ dev.advance = true ∧ dev.device.driver = none ∧
      (dev.device.useSpecified = true → dev.device.bus = 0 ∧ dev.device.devfn = 0)

/-- The call comes to an end, reports that no device is left, and has tried every matching pair once. -/
def Enumerates (sp : ConfigSpace) (drivers : List PciDriver) (dev : Dev) : Prop :=
  ∃ fuel dev' tries, pciProbe sp drivers allFail fuel dev = some (probeFailed, dev', tries) ∧
    tries.Nodup ∧ ∀ t, t ∈ tries ↔ Matching sp drivers dev.type t

/-- The drivers that are taken for the class of a device do not spoil the search. -/
structure DeviceOk (sp : ConfigSpace) (drivers : List PciDriver) (type : Int) (bus devfn : Nat) : Prop where
  /-- There is at most one of them. -/
  one : ∀ k k', TakenByClass sp drivers type bus devfn k → TakenByClass sp drivers type bus devfn k' → k' = k
  /-- No driver behind it has the id of the device. -/
  last : ∀ k k', TakenByClass sp drivers type bus devfn k → FitsId sp drivers type bus devfn k' → k' ≤ k
  /-- It fits the device. -/
  fits : ∀ k, TakenByClass sp drivers type bus devfn k →
    FitsId sp drivers type bus devfn k ∨ FitsClass sp drivers type bus devfn k

/-- No device function 255 has a driver, and all other devices are in order. -/
def Enumerable (sp : ConfigSpace) (drivers : List PciDriver) (type : Int) : Prop :=
  ∀ bus < 256, (∀ k, ¬ Matching sp drivers type ⟨bus, 255, k⟩) ∧
    ∀ devfn < 255, Present sp bus devfn → DeviceOk sp drivers type bus devfn

/-! ## The loop and the search -/

section Loop

variable {sp : ConfigSpace} {drivers : List PciDriver}

/-- The loop is going through the devices. -/
structure Dev.Searching (drivers : List PciDriver) (dev : Dev) : Prop where
  notAwake : dev.howProbe ≠ probeAwake
  advance : dev.advance = true
  valid : dev.device.Valid drivers dev.type

/-- The driver that is tried at a place. -/
def tryAt (p : Nat × Nat) : Try := ⟨p.1 / 255, p.1 % 255, p.2⟩

theorem tryAt_injective : Function.Injective tryAt := by
  rintro ⟨n, k⟩ ⟨n', k'⟩ h
  have hbus : n / 255 = n' / 255 := congrArg Try.bus h
  have hdevfn : n % 255 = n' % 255 := congrArg Try.devfn h
  have hdriver : k = k' := congrArg Try.driver h
  exact Prod.ext (by omega : n = n') hdriver

/-- The search that the loop carries out. -/
def places (sp : ConfigSpace) (drivers : List PciDriver) (type : Int) :
    Option (Nat × Nat) → Option (Nat × Nat) :=
  nested (searchAt sp drivers type) positions

theorem Dev.Searching.find {dev : Dev} (h : dev.Searching drivers) :
    (dev.find sp drivers).device.place = places sp drivers dev.type dev.device.place ∧
      (dev.find sp drivers).announce.Searching drivers ∧ (dev.find sp drivers).announce.type = dev.type := by
  obtain ⟨hplace, hvalid⟩ := @scanPciBus_place sp drivers dev.type dev.device h.valid
  have hfind : dev.find sp drivers =
      { dev with device := scanPciBus sp drivers dev.type dev.device, index := -1, advance := true } := by
    rw [Dev.find, if_pos ⟨h.notAwake, h.advance⟩]
  rw [hfind]
  exact ⟨hplace, ⟨h.notAwake, rfl, hvalid⟩, rfl⟩

/-- One turn of the loop: there is nothing more, or the next driver is tried. -/
theorem probeLoop_turn {dev : Dev} (h : dev.Searching drivers) (fuel : Nat) :
    (places sp drivers dev.type dev.device.place = none ∧
      probeLoop sp drivers allFail (fuel + 1) dev = some (probeFailed, dev.find sp drivers, [])) ∨
    ∃ p dev', places sp drivers dev.type dev.device.place = some p ∧ dev'.Searching drivers ∧
      dev'.type = dev.type ∧ dev'.device.place = some p ∧
      probeLoop sp drivers allFail (fuel + 1) dev =
        (probeLoop sp drivers allFail fuel dev').map (fun r => (r.1, r.2.1, tryAt p :: r.2.2)) := by
  obtain ⟨hplace, hsearching, htype⟩ := @Dev.Searching.find sp drivers dev h
  cases hdriver : (dev.find sp drivers).device.driver with
  | none =>
    refine .inl ⟨hplace.symm.trans (congrArg (Option.map _) hdriver), ?_⟩
    simp only [probeLoop, hdriver]
  | some k =>
    have hfound : (dev.find sp drivers).device.place =
        some ((dev.find sp drivers).device.bus * 255 + (dev.find sp drivers).device.devfn, k) :=
      congrArg (Option.map _) hdriver
    obtain ⟨-, hlt, -⟩ := hsearching.valid.found k hdriver
    have hlt' : (dev.find sp drivers).device.devfn < 255 := hlt
    refine .inr ⟨_, _, hplace.symm.trans hfound, hsearching, htype, hfound, ?_⟩
    simp only [probeLoop, hdriver, allFail, tryAt, div_position hlt', mod_position hlt']
    cases probeLoop sp drivers allFail fuel (dev.find sp drivers).announce <;> rfl

/-- With enough fuel the loop tries what the search finds. -/
theorem probeLoop_of_chain {type : Int} {a : Option (Nat × Nat)} {l : List (Nat × Nat)}
    (h : Chain (places sp drivers type) a l) :
    ∀ {dev : Dev}, dev.Searching drivers → dev.type = type → dev.device.place = a →
      ∃ dev', probeLoop sp drivers allFail (l.length + 1) dev = some (probeFailed, dev', l.map tryAt) := by
  induction h with
  | done hnone =>
    rintro dev hdev rfl rfl
    rcases probeLoop_turn hdev 0 with ⟨-, hloop⟩ | ⟨p, -, hp, -⟩
    · exact ⟨_, hloop⟩
    · cases hnone.symm.trans hp
  | @more a b l hsome _ ih =>
    rintro dev hdev rfl rfl
    rcases probeLoop_turn hdev (l.length + 1) with ⟨hnone, -⟩ | ⟨p, next, hp, hnext, htype, hplace, hloop⟩
    · cases hnone.symm.trans hsome
    · cases hsome.symm.trans hp
      obtain ⟨dev', hrest⟩ := ih hnext htype hplace
      refine ⟨dev', ?_⟩
      rw [List.length_cons, hloop, hrest]
      rfl

/-- If the loop comes to an end, so does the search. -/
theorem chain_of_probeLoop {fuel : Nat} :
    ∀ {dev dev' : Dev} {result : Int} {tries : List Try}, dev.Searching drivers →
      probeLoop sp drivers allFail fuel dev = some (result, dev', tries) →
      ∃ l, Chain (places sp drivers dev.type) dev.device.place l ∧ tries = l.map tryAt := by
  induction fuel with
  | zero => exact fun _ h => by cases h
  | succ fuel ih =>
    intro dev dev' result tries hdev h
    rcases probeLoop_turn hdev fuel with ⟨hnone, hloop⟩ | ⟨p, next, hp, hnext, htype, hplace, hloop⟩
    · obtain ⟨-, -, rfl⟩ : probeFailed = result ∧ dev.find sp drivers = dev' ∧ [] = tries := by
        simpa only [Option.some.injEq, Prod.mk.injEq] using hloop.symm.trans h
      exact ⟨[], .done hnone, rfl⟩
    · obtain ⟨⟨result', dev'', tries'⟩, hrest, heq⟩ := Option.map_eq_some_iff.mp (hloop.symm.trans h)
      obtain ⟨l, hl, rfl⟩ := ih hnext hrest
      rw [htype, hplace] at hl
      exact ⟨p :: l, .more hp hl, (congrArg (fun r => r.2.2) heq).symm⟩

end Loop

/-! ## What the search finds -/

section Pairs

variable {sp : ConfigSpace} {drivers : List PciDriver} {type : Int}

theorem Linked.lt {f : PciDriver → Bool} {k : Nat} (h : Linked drivers type f k) : k < drivers.length := by
  obtain ⟨d, hd, -⟩ := h
  exact (List.getElem?_eq_some_iff.mp hd).1

/-- A driver for the class of a device is taken for it, as its class is not 0. -/
theorem FitsClass.taken {bus devfn k : Nat} (h : FitsClass sp drivers type bus devfn k) :
    TakenByClass sp drivers type bus devfn k := by
  obtain ⟨d, hd, htype, hclass⟩ := h
  obtain ⟨hne, heq⟩ := of_decide_eq_true hclass
  refine ⟨d, hd, htype, decide_eq_true ⟨fun hzero => ?_, heq⟩⟩
  rw [hzero, Nat.zero_div] at heq
  exact hne heq.symm

/-- The search at a device comes to an end if the drivers that are taken for its class are in order. -/
def InOrder (sp : ConfigSpace) (drivers : List PciDriver) (type : Int) (bus devfn : Nat) : Prop :=
  Orderly (fun k => Present sp bus devfn ∧ FitsId sp drivers type bus devfn k)
    (fun k => Present sp bus devfn ∧ TakenByClass sp drivers type bus devfn k) drivers.length

theorem places_end_iff :
    Ends (places sp drivers type) none ↔ ∀ bus < 256, ∀ devfn < 255, InOrder sp drivers type bus devfn := by
  rw [places, nested_ends_iff]
  constructor
  · intro h bus hbus devfn hdevfn
    have hpositions : positions = 65280 := rfl
    have hends := h (bus * 255 + devfn) (by omega)
    rw [searchAt_position hdevfn] at hends
    exact byTwo_ends_iff.mp hends
  · intro h n hn
    have hpositions : positions = 65280 := rfl
    exact byTwo_ends_iff.mpr (h (n / 255) (by omega) (n % 255) (by omega))

theorem mem_tries {l : List (Nat × Nat)} (h : Chain (places sp drivers type) none l) (t : Try) :
    t ∈ l.map tryAt ↔ t.bus < 256 ∧ t.devfn < 255 ∧ Present sp t.bus t.devfn ∧
      (FitsId sp drivers type t.bus t.devfn t.driver ∨ TakenByClass sp drivers type t.bus t.devfn t.driver) := by
  have horder := places_end_iff.mp ⟨l, h⟩
  have hpositions : positions = 65280 := rfl
  rw [List.mem_map]
  constructor
  · rintro ⟨⟨n, k⟩, hmem, rfl⟩
    obtain ⟨hn, hfinds⟩ := (mem_nested h n k).mp hmem
    have hbus : n / 255 < 256 := by omega
    have hdevfn : n % 255 < 255 := by omega
    obtain ⟨-, hid | hclass⟩ := (byTwo_finds (horder _ hbus _ hdevfn) k).mp hfinds
    · exact ⟨hbus, hdevfn, hid.1, .inl hid.2⟩
    · exact ⟨hbus, hdevfn, hclass.1, .inr hclass.2⟩
  · rintro ⟨hbus, hdevfn, hpresent, hfits⟩
    obtain ⟨bus, devfn, k⟩ := t
    dsimp only at hbus hdevfn hpresent hfits
    have hlt : k < drivers.length := hfits.elim Linked.lt Linked.lt
    have hfinds : Finds (searchAt sp drivers type (bus * 255 + devfn)) none k := by
      rw [searchAt_position hdevfn]
      refine (byTwo_finds (horder bus hbus devfn hdevfn) k).mpr ⟨hlt, ?_⟩
      exact hfits.imp (fun hid => ⟨hpresent, hid⟩) (fun hclass => ⟨hpresent, hclass⟩)
    refine ⟨(bus * 255 + devfn, k), (mem_nested h _ k).mpr ⟨by omega, hfinds⟩, ?_⟩
    rw [tryAt, div_position hdevfn, mod_position hdevfn]

theorem DeviceOk.inOrder {bus devfn : Nat} (h : Present sp bus devfn → DeviceOk sp drivers type bus devfn) :
    InOrder sp drivers type bus devfn := by
  rintro q - ⟨hpresent, hq⟩
  exact ⟨fun q' _ hq' => (h hpresent).one q q' hq hq'.2, fun p _ hp => (h hpresent).last q p hq hp.2⟩

end Pairs

/-! ## When every matching pair is tried once -/

section Enumerates

variable {sp : ConfigSpace} {drivers : List PciDriver} {dev : Dev}

theorem Dev.Starts.probe (h : dev.Starts) : ∃ dev0 : Dev, dev0.Searching drivers ∧ dev0.type = dev.type ∧
    dev0.device.place = none ∧ ∀ fuel, pciProbe sp drivers allFail fuel dev =
      probeLoop sp drivers allFail fuel dev0 := by
  rcases h with hfirst | ⟨hnext, hadvance, hdriver, hstart⟩
  · refine ⟨_, ?_, ?_, ?_, fun fuel => by rw [pciProbe, if_pos hfirst]⟩
    · refine ⟨?_, rfl, fun _ _ => ⟨rfl, rfl⟩, fun k hk => by cases hk⟩
      exact fun hawake => by cases (hfirst.symm.trans hawake)
    · rfl
    · rfl
  · have hne : dev.howProbe ≠ probeFirst := fun hfirst => by cases (hnext.symm.trans hfirst)
    refine ⟨dev, ⟨?_, hadvance, fun _ => hstart, fun k hk => ?_⟩, rfl, congrArg (Option.map _) hdriver,
      fun fuel => by rw [pciProbe, if_neg hne]⟩
    · exact fun hawake => by cases (hnext.symm.trans hawake)
    · cases hdriver.symm.trans hk

/-- The call enumerates if the search comes to an end and finds the matching pairs. -/
theorem Dev.Starts.enumerates_iff_chain (h : dev.Starts) :
    Enumerates sp drivers dev ↔ ∃ l, Chain (places sp drivers dev.type) none l ∧
      ∀ t, t ∈ l.map tryAt ↔ Matching sp drivers dev.type t := by
  obtain ⟨dev0, hsearching, htype, hplace, hcall⟩ := @Dev.Starts.probe sp drivers dev h
  constructor
  · rintro ⟨fuel, dev', tries, hprobe, -, hmem⟩
    rw [hcall] at hprobe
    obtain ⟨l, hl, rfl⟩ := chain_of_probeLoop hsearching hprobe
    rw [htype, hplace] at hl
    exact ⟨l, hl, hmem⟩
  · rintro ⟨l, hl, hmem⟩
    obtain ⟨dev', hloop⟩ := probeLoop_of_chain hl hsearching htype hplace
    exact ⟨_, dev', _, (hcall _).trans hloop, hl.nodup.map tryAt_injective, hmem⟩

/-- **Every matching pair is tried once**, and then no device is left, exactly if no device function 255 has a
    driver and the drivers that are taken for the class of a device are in order. -/
theorem enumerates_iff (sp : ConfigSpace) (drivers : List PciDriver) (dev : Dev) (h : dev.Starts) :
    Enumerates sp drivers dev ↔ Enumerable sp drivers dev.type := by
  rw [h.enumerates_iff_chain]
  constructor
  · rintro ⟨l, hl, hmem⟩ bus hbus
    have horder := places_end_iff.mp ⟨l, hl⟩ bus hbus
    refine ⟨fun k hmatching => ?_, fun devfn hdevfn hpresent => ⟨?_, ?_, ?_⟩⟩
    · obtain ⟨-, hlt, -⟩ := (mem_tries hl _).mp ((hmem _).mpr hmatching)
      exact absurd hlt (Nat.lt_irrefl 255)
    · intro k k' hk hk'
      exact (horder devfn hdevfn k hk.lt ⟨hpresent, hk⟩).1 k' hk'.lt ⟨hpresent, hk'⟩
    · intro k k' hk hk'
      exact (horder devfn hdevfn k hk.lt ⟨hpresent, hk⟩).2 k' hk'.lt ⟨hpresent, hk'⟩
    · intro k hk
      exact ((hmem ⟨bus, devfn, k⟩).mp ((mem_tries hl _).mpr ⟨hbus, hdevfn, hpresent, .inr hk⟩)).fits
  · intro hok
    obtain ⟨l, hl⟩ := places_end_iff.mpr
      (fun bus hbus devfn hdevfn => DeviceOk.inOrder ((hok bus hbus).2 devfn hdevfn))
    refine ⟨l, hl, fun t => ?_⟩
    rw [mem_tries hl]
    constructor
    · rintro ⟨hbus, hdevfn, hpresent, hfits⟩
      refine ⟨hbus, by omega, hpresent, ?_⟩
      exact hfits.elim .inl (((hok t.bus hbus).2 t.devfn hdevfn hpresent).fits t.driver)
    · rintro ⟨hbus, hdevfn, hpresent, hfits⟩
      have hlt : t.devfn < 255 := by
        refine Nat.lt_of_le_of_ne (Nat.le_of_lt_succ hdevfn) (fun heq => ?_)
        refine (hok t.bus hbus).1 t.driver ⟨hbus, Nat.lt_succ_self 255, ?_, ?_⟩
        · rw [← heq]
          exact hpresent
        · rw [← heq]
          exact hfits
      exact ⟨hbus, hlt, hpresent, hfits.imp id FitsClass.taken⟩

end Enumerates

/-! ## Two drivers for one class -/

/-- One IDE controller, as the device function 0 of the bus 0, and nothing else. -/
def oneController : ConfigSpace := fun bus devfn reg =>
  if bus = 0 ∧ devfn = 0 then
    match reg with
    | 0 => 0x86
    | 1 => 0x80
    | 2 => 0x11
    | 3 => 0x71
    | 9 => 0x80
    | 10 => 0x01
    | 11 => 0x01
    | _ => 0
  else 0xff

/-- The driver of `ide_disk.c`. -/
def ideDriver : PciDriver := ⟨1, "IDE", [⟨0x8086, 0x248b, "PIIX4"⟩], 0x0101⟩

/-- The driver of `filo.c`. -/
def filoDriver : PciDriver := ⟨1, "FILO", [⟨0x8086, 0x248b, "PIIX4"⟩], 0x0101⟩

/-- The first call for a disk. -/
def firstDisk : Dev where
  type := 1
  howProbe := probeFirst
  index := 0
  typeIndex := -1
  busType := 0
  vendorId := 0
  deviceId := 0
  device := ⟨0, 0, 0, "", 0, 0, 0, 0, 0, 0, false, none⟩
  advance := false

theorem enumerates_oneController :
    firstDisk.Starts ∧ Enumerates oneController [ideDriver] firstDisk ∧
      Matching oneController [ideDriver] 1 ⟨0, 0, 0⟩ := by
  -- there is only one driver, and it is for a class
  have honly : ∀ {f : PciDriver → Bool} {k : Nat}, Linked [ideDriver] 1 f k → k = 0 := by
    intro f k h
    have hlt : k < 1 := h.lt
    omega
  refine ⟨.inl rfl, ?_, ⟨by decide, by decide, by decide, .inr ⟨ideDriver, rfl, rfl, by decide⟩⟩⟩
  refine (enumerates_iff oneController [ideDriver] firstDisk (.inl rfl)).mpr ?_
  intro bus _
  refine ⟨fun k h => h.present.2.1 ?_, fun devfn _ _ => ⟨?_, ?_, ?_⟩⟩
  · have habsent : ¬ (bus = 0 ∧ 255 = 0) := fun h => by cases h.2
    simp only [readConfigDword, oneController, if_neg habsent]
    decide
  · exact fun k k' hk hk' => (honly hk').trans (honly hk).symm
  · exact fun k k' hk hk' => Nat.le_of_eq ((honly hk').trans (honly hk).symm)
  · intro k hk
    obtain rfl := honly hk
    obtain ⟨d, hd, htype, hclass⟩ := hk
    cases hd
    exact .inr ⟨ideDriver, rfl, htype, decide_eq_true ⟨by decide, (of_decide_eq_true hclass).2⟩⟩

/-- With both drivers for IDE controllers linked in, the call does not come to an end. -/
theorem two_drivers_for_one_class :
    firstDisk.Starts ∧ ¬ Enumerates oneController [ideDriver, filoDriver] firstDisk ∧
      ∀ fuel, pciProbe oneController [ideDriver, filoDriver] allFail fuel firstDisk = none := by
  have hstarts : firstDisk.Starts := .inl rfl
  have hendless : ¬ Ends (places oneController [ideDriver, filoDriver] 1) none := by
    intro hends
    have horder := places_end_iff.mp hends 0 (by decide) 0 (by decide)
    cases (horder 0 (by decide) (by decide)).1 1 (by decide) (by decide)
  refine ⟨hstarts, fun h => ?_, fun fuel => ?_⟩
  · obtain ⟨l, hl, -⟩ := hstarts.enumerates_iff_chain.mp h
    exact hendless ⟨l, hl⟩
  · obtain ⟨dev0, hsearching, htype, hplace, hcall⟩ :=
      @Dev.Starts.probe oneController [ideDriver, filoDriver] firstDisk hstarts
    rw [hcall, Option.eq_none_iff_forall_ne_some]
    rintro ⟨result, dev', tries⟩ hloop
    obtain ⟨l, hl, -⟩ := chain_of_probeLoop hsearching hloop
    rw [htype, hplace] at hl
    exact hendless ⟨l, hl⟩

end Pci
