import Etherboot.Lib.Resume

set_option autoImplicit false

/-! # Finding PCI devices (`core/pci.c` and `core/pci_probe.c`)

`scan_pci_bus` looks for a device and a driver of a given type that fit each other. It goes through all buses
and device functions, and for each device through the drivers that are linked in: first those that have the
device in their table of ids, then those for the class of the device. It is resumed from the last device and
driver, which is all that it remembers. `pci_probe` calls it until a driver says that it works. -/

namespace Pci

/-! ## Configuration space -/

/-- The byte of a register, by bus, device function and register. -/
abbrev ConfigSpace := Nat → Nat → Nat → UInt8

def readConfigByte (sp : ConfigSpace) (bus devfn reg : Nat) : UInt8 := sp bus devfn reg

def readConfigDword (sp : ConfigSpace) (bus devfn reg : Nat) : Nat :=
  (sp bus devfn reg).toNat + 256 * (sp bus devfn (reg + 1)).toNat +
    65536 * (sp bus devfn (reg + 2)).toNat + 16777216 * (sp bus devfn (reg + 3)).toNat

def pciVendorId : Nat := 0x00
def pciRevision : Nat := 0x08
def pciHeaderType : Nat := 0x0e
def pciBaseAddress0 : Nat := 0x10
def pciBaseAddress1 : Nat := 0x14
def pciRomAddress : Nat := 0x30
def pciInterruptLine : Nat := 0x3c
def pciInterruptPin : Nat := 0x3d

/-! ## Drivers -/

structure PciId where
  vendor : Nat
  devId : Nat
  name : String
  deriving DecidableEq, Repr

/-- `struct pci_driver`, but for its function. A class of 0 is none. -/
structure PciDriver where
  type : Int
  name : String
  ids : List PciId
  class' : Nat
  deriving DecidableEq, Repr

/-- `struct pci_device`. `driver` is the index of the driver among those that are linked in. -/
structure PciDevice where
  class' : Nat
  vendor : Nat
  devId : Nat
  name : String
  membase : Nat
  ioaddr : Nat
  romaddr : Nat
  irq : UInt8
  devfn : Nat
  bus : Nat
  useSpecified : Bool
  driver : Option Nat
  deriving DecidableEq, Repr

/-- The first loop of `scan_drivers`, from the driver with the index `k` on. It ends with a driver and the
    name of the device, or with none; `skip` is `skip_driver`. -/
def scanIds (type : Int) (vendor device : Nat) :
    Nat → List PciDriver → Option Nat → Option (Nat × String) × Option Nat
  | _, [], skip => (none, skip)
  | k, d :: ds, skip =>
    if d.type ≠ type then scanIds type vendor device (k + 1) ds skip
    else
      match skip with
      | some s => scanIds type vendor device (k + 1) ds (if s = k then none else some s)
      | none =>
        match d.ids.find? (fun id => decide (vendor = id.vendor ∧ device = id.devId)) with
        | some id => (some (k, id.name), none)
        | none => scanIds type vendor device (k + 1) ds none

/-- The second loop of `scan_drivers`. -/
def scanClasses (type : Int) (class' : Nat) (last : Option Nat) :
    Nat → List PciDriver → Option Nat → Option (Nat × String)
  | _, [], _ => none
  | k, d :: ds, skip =>
    if d.type ≠ type then scanClasses type class' last (k + 1) ds skip
    else
      match skip with
      | some s => scanClasses type class' last (k + 1) ds (if s = k then none else some s)
      | none =>
        if last = some k then scanClasses type class' last (k + 1) ds none
        else if class' / 256 = d.class' then some (k, d.name)
        else scanClasses type class' last (k + 1) ds none

variable (sp : ConfigSpace) (drivers : List PciDriver)

/-- `scan_drivers` -/
def scanDrivers (type : Int) (class' vendor device : Nat) (last : Option Nat) :
    Option (Nat × String) :=
  match scanIds type vendor device 0 drivers last with
  | (some found, _) => some found
  | (none, skip) => if class' = 0 then none else scanClasses type class' last 0 drivers skip

/-! ## Buses -/

/-- What `scan_pci_bus` has found. -/
structure Match where
  bus : Nat
  devfn : Nat
  class' : Nat
  vendor : Nat
  device : Nat
  driver : Nat
  name : String
  deriving DecidableEq, Repr

/-- The loop over the device functions of a bus, with `n` of them to come: what has been found, and the
    variables `hdr_type` and `first_driver`. -/
def scanDevfns (sp : ConfigSpace) (drivers : List PciDriver) (type : Int) (bus : Nat) :
    Nat → Nat → UInt8 → Option Nat → Option Match × UInt8 × Option Nat
  | 0, _, hdrType, first => (none, hdrType, first)
  | n + 1, devfn, hdrType, first =>
    let hdrType := if devfn % 8 = 0 then readConfigByte sp bus devfn pciHeaderType else hdrType
    if devfn % 8 ≠ 0 ∧ hdrType &&& 0x80 = 0 then scanDevfns sp drivers type bus n (devfn + 1) hdrType none
    else
      let l := readConfigDword sp bus devfn pciVendorId
      if l = 0xffffffff ∨ l = 0 then scanDevfns sp drivers type bus n (devfn + 1) hdrType none
      else
        let vendor := l % 65536
        let device := l / 65536 % 65536
        let class' := readConfigDword sp bus devfn pciRevision / 256 % 2 ^ 24
        match scanDrivers drivers type class' vendor device first with
        | none => scanDevfns sp drivers type bus n (devfn + 1) hdrType none
        | some (k, name) => (some ⟨bus, devfn, class', vendor, device, k, name⟩, hdrType, first)

/-- The loop over the buses, with `n` of them to come. -/
def scanBuses (sp : ConfigSpace) (drivers : List PciDriver) (type : Int) :
    Nat → Nat → Nat → UInt8 → Option Nat → Option Match
  | 0, _, _, _, _ => none
  | n + 1, bus, devfn, hdrType, first =>
    match scanDevfns sp drivers type bus (0xff - devfn) devfn hdrType first with
    | (some found, _, _) => some found
    | (none, hdrType, first) => scanBuses sp drivers type n (bus + 1) 0 hdrType first

/-- The io address: the last base address that is one. -/
def readIoaddr (bus devfn : Nat) (old : Nat) : Nat :=
  (List.range 6).foldl (fun io i =>
    let addr := readConfigDword sp bus devfn (pciBaseAddress0 + 4 * i)
    if addr / 4 = 0 ∨ addr % 2 = 0 then io else addr / 4 * 4) old

/-- The interrupt. -/
def readIrq (bus devfn : Nat) : UInt8 :=
  if readConfigByte sp bus devfn pciInterruptPin ≠ 0 then readConfigByte sp bus devfn pciInterruptLine else 0

/-- What is noted of a device that has been found. -/
def PciDevice.note (dev : PciDevice) (m : Match) : PciDevice where
  class' := m.class'
  vendor := m.vendor
  devId := m.device
  name := m.name
  membase := readConfigDword sp m.bus m.devfn pciBaseAddress1
  ioaddr := readIoaddr sp m.bus m.devfn dev.ioaddr
  romaddr := readConfigDword sp m.bus m.devfn pciRomAddress / 1024
  irq := readIrq sp m.bus m.devfn
  devfn := m.devfn
  bus := m.bus
  useSpecified := dev.useSpecified
  driver := some m.driver

/-- `scan_pci_bus`, which is what `find_pci` does. -/
def scanPciBus (type : Int) (dev : PciDevice) : PciDevice :=
  if dev.driver ≠ none ∨ dev.useSpecified then
    let hdrType := readConfigByte sp dev.bus (dev.devfn / 8 * 8) pciHeaderType
    match scanBuses sp drivers type (256 - dev.bus) dev.bus dev.devfn hdrType dev.driver with
    | some found => dev.note sp found
    | none => { dev with driver := none, bus := 0, devfn := 0 }
  else
    match scanBuses sp drivers type 256 0 0 0 none with
    | some found => dev.note sp found
    | none => dev

/-! ## Probing -/

def probeFirst : Int := -1
def probeNext : Int := 0
def probeAwake : Int := 1
def probeWorked : Int := probeNext
def probeFailed : Int := probeFirst

/-- `struct dev`, as far as it is used here: `busType`, `vendorId` and `deviceId` are its `devid`, and `device`
    and `advance` its `state.pci`. -/
structure Dev where
  type : Int
  howProbe : Int
  index : Int
  typeIndex : Int
  busType : Nat
  vendorId : Nat
  deviceId : Nat
  device : PciDevice
  advance : Bool

/-- A driver is tried for a device: bus, device function, and the index of the driver. -/
structure Try where
  bus : Nat
  devfn : Nat
  driver : Nat
  deriving DecidableEq, Repr

/-- The next device, unless the last one is to be probed again. -/
def Dev.find (dev : Dev) : Dev :=
  let dev := if dev.howProbe ≠ probeAwake ∧ dev.advance then
      { dev with device := scanPciBus sp drivers dev.type dev.device, index := -1 }
    else dev
  { dev with advance := true }

def pciBusType : Nat := 1

/-- `htons` on a little endian machine -/
def htons (n : Nat) : Nat := n % 256 * 256 + n / 256 % 256

/-- The device is told to the driver. -/
def Dev.announce (dev : Dev) : Dev :=
  { dev with
    typeIndex := if dev.howProbe ≠ probeAwake then dev.typeIndex + 1 else dev.typeIndex
    busType := pciBusType, vendorId := htons dev.device.vendor, deviceId := htons dev.device.devId }

/-- The loop of `pci_probe`, with the drivers that have been tried. `probe` is the function of the driver: it
    fails, or works and leaves the index of another device behind the same one. Without fuel there is no
    result yet. -/
def probeLoop (sp : ConfigSpace) (drivers : List PciDriver) (probe : Dev → Option Int) :
    Nat → Dev → Option (Int × Dev × List Try)
  | 0, _ => none
  | fuel + 1, dev =>
    let dev := dev.find sp drivers
    match dev.device.driver with
    | none => some (probeFailed, dev, [])
    | some k =>
      let dev := dev.announce
      match probe dev with
      | some index =>
        some (probeWorked, { dev with index := index, advance := decide (index = -1) },
          [⟨dev.device.bus, dev.device.devfn, k⟩])
      | none =>
        match probeLoop sp drivers probe fuel dev with
        | none => none
        | some (result, dev', tries) =>
          some (result, dev', ⟨dev.device.bus, dev.device.devfn, k⟩ :: tries)

/-- `pci_probe` -/
def pciProbe (probe : Dev → Option Int) (fuel : Nat)
    (dev : Dev) : Option (Int × Dev × List Try) :=
  let dev := if dev.howProbe = probeFirst then
      { dev with
        advance := true, index := -1, device := { dev.device with driver := none, bus := 0, devfn := 0 } }
    else dev
  probeLoop sp drivers probe fuel dev

end Pci
