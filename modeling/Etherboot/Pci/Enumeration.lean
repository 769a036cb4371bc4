import Etherboot.Pci.Scan

set_option autoImplicit false

/-! # The scan as a search that is resumed

The last device and driver are all that `scan_pci_bus` has to go on. It is a search over the drivers, by their
ids and then by their class (`scanDrivers_eq`), that is nested in a search over the device functions of all
buses (`scanBuses_eq`). `scanPciBus_place` says what it finds next. -/

namespace Pci

open Resume PciDriver

/-! ## What fits -/

/-- The driver with the index `k` is of the type that is looked for, and is as `f` says. -/
def Linked (drivers : List PciDriver) (type : Int) (f : PciDriver → Bool) (k : Nat) : Prop :=
  ∃ d, drivers[k]? = some d ∧ d.type = type ∧ f d = true

instance (drivers : List PciDriver) (type : Int) (f : PciDriver → Bool) (k : Nat) :
    Decidable (Linked drivers type f k) :=
  match h : drivers[k]? with
  | none => .isFalse (fun ⟨_, hd, _⟩ => Option.some_ne_none _ (hd.symm.trans h))
  | some d =>
    decidable_of_iff (d.type = type ∧ f d = true)
      ⟨fun hd => ⟨d, h, hd⟩, fun ⟨_, he, hd⟩ => (Option.some.inj (h.symm.trans he)) ▸ hd⟩

/-- The device is in the table of the driver. -/
def PciDriver.hasId (vendor device : Nat) (d : PciDriver) : Bool :=
  d.ids.any (fun id => decide (vendor = id.vendor ∧ device = id.devId))

/-- The comparison of the classes that `scan_drivers` makes. -/
def PciDriver.hasClass (class' : Nat) (d : PciDriver) : Bool :=
  decide (class' ≠ 0 ∧ class' / 256 = d.class')

variable (sp : ConfigSpace) (bus devfn : Nat)

/-- A device answers: the function 0, or another function of a device with several of them. -/
def Present : Prop :=
  (devfn % 8 = 0 ∨ readConfigByte sp bus (devfn / 8 * 8) pciHeaderType &&& 0x80 ≠ 0) ∧
    readConfigDword sp bus devfn pciVendorId ≠ 0xffffffff ∧ readConfigDword sp bus devfn pciVendorId ≠ 0
  deriving Decidable

def vendorOf : Nat :=
  readConfigDword sp bus devfn pciVendorId % 65536

def deviceOf : Nat :=
  readConfigDword sp bus devfn pciVendorId / 65536 % 65536

def classOf : Nat :=
  readConfigDword sp bus devfn pciRevision / 256 % 2 ^ 24

section Fits

variable (sp : ConfigSpace) (drivers : List PciDriver) (type : Int) (bus devfn k : Nat)

/-- The driver has the id of the device. -/
def FitsId : Prop := Linked drivers type (PciDriver.hasId (vendorOf sp bus devfn) (deviceOf sp bus devfn)) k
  deriving Decidable

/-- The driver is for the class of the device. A driver with the class 0 is not for a class. -/
def FitsClass : Prop :=
  Linked drivers type (fun d => decide (d.class' ≠ 0 ∧ classOf sp bus devfn / 256 = d.class')) k

/-- The driver is taken for the class of the device by `scan_drivers`. -/
def TakenByClass : Prop := Linked drivers type (PciDriver.hasClass (classOf sp bus devfn)) k
  deriving Decidable

end Fits

/-- A device and a driver that match. -/
structure Matching (drivers : List PciDriver) (type : Int) (t : Try) : Prop where
  bus : t.bus < 256
  devfn : t.devfn < 256
  present : Present sp t.bus t.devfn
  fits : FitsId sp drivers type t.bus t.devfn t.driver ∨ FitsClass sp drivers type t.bus t.devfn t.driver

/-! ## The drivers -/

section Drivers

variable {drivers : List PciDriver} {type : Int} {ds : List PciDriver} {vendor device : Nat}

theorem linked_of_drop {k : Nat} {d : PciDriver} (h : drivers.drop k = d :: ds)
    (f : PciDriver → Bool) : Linked drivers type f k ↔ d.type = type ∧ f d = true := by
  have hd : drivers[k]? = some d := by
    rw [← List.head?_drop, h]
    rfl
  constructor
  · rintro ⟨d', hd', hf⟩
    cases hd.symm.trans hd'
    exact hf
  · exact fun hf => ⟨d, hd, hf⟩

theorem drop_succ_of_drop {k : Nat} {d : PciDriver} (h : drivers.drop k = d :: ds) :
    drivers.drop (k + 1) = ds := by
  rw [← List.drop_drop, h]
  rfl

theorem scanIds_skip {x : Nat} (hx : Linked drivers type (fun _ => true) x)
    : ∀ {k : Nat}, drivers.drop k = ds → k ≤ x →
      scanIds type vendor device k ds (some x) =
        scanIds type vendor device (x + 1) (drivers.drop (x + 1)) none := by
  induction ds with
  | nil =>
    intro k hdrop hle
    obtain ⟨d, hd, -⟩ := hx
    have hlt := (List.getElem?_eq_some_iff.mp hd).1
    have hlen := List.drop_eq_nil_iff.mp hdrop
    omega
  | cons d ds ih =>
    intro k hdrop hle
    have hrest := drop_succ_of_drop hdrop
    rw [scanIds]
    rcases Nat.eq_or_lt_of_le hle with rfl | hlt
    · have htype := ((linked_of_drop hdrop _).mp hx).1
      rw [if_neg (not_not_intro htype)]
      simp only [if_true, hrest]
    · split
      · exact ih hrest hlt
      · simp only [if_neg (Nat.ne_of_gt hlt)]
        exact ih hrest hlt

theorem scanIds_eq : ∀ {k : Nat}, drivers.drop k = ds →
    (scanIds type vendor device k ds none).1.map Prod.fst =
        first (Linked drivers type (hasId vendor device)) ds.length k ∧
      (scanIds type vendor device k ds none).2 = none := by
  induction ds with
  | nil => exact fun _ => ⟨rfl, rfl⟩
  | cons d ds ih =>
    intro k hdrop
    have hrest := ih (drop_succ_of_drop hdrop)
    have hlinked : Linked drivers type (hasId vendor device) k ↔ _ := linked_of_drop hdrop _
    rw [scanIds, List.length_cons, first]
    split
    · next htype =>
      rw [if_neg (fun h => htype (hlinked.mp h).1)]
      exact hrest
    · next htype =>
      split
      · next id hid =>
        have hfits := List.find?_some hid
        have hany : d.hasId vendor device = true :=
          List.any_eq_true.mpr ⟨id, List.mem_of_find?_eq_some hid, hfits⟩
        rw [if_pos (hlinked.mpr ⟨not_not.mp htype, hany⟩)]
        exact ⟨rfl, rfl⟩
      · next hid =>
        have hany : ¬ d.hasId vendor device = true := by
          rw [hasId, List.any_eq_true]
          rintro ⟨id, hmem, hfits⟩
          exact List.find?_eq_none.mp hid id hmem hfits
        rw [if_neg (fun h => hany (hlinked.mp h).2)]
        exact hrest

theorem scanClasses_eq {class' : Nat} (hclass : class' ≠ 0) {last : Option Nat} :
    ∀ {k : Nat}, drivers.drop k = ds →
      (scanClasses type class' last k ds none).map Prod.fst =
        first (fun m => last ≠ some m ∧ Linked drivers type (hasClass class') m) ds.length k := by
  induction ds with
  | nil => exact fun _ => rfl
  | cons d ds ih =>
    intro k hdrop
    have hrest := ih (drop_succ_of_drop hdrop)
    have hlinked : Linked drivers type (hasClass class') k ↔ _ := linked_of_drop hdrop _
    rw [scanClasses, List.length_cons, first]
    split
    · next htype =>
      rw [if_neg (fun h => htype (hlinked.mp h.2).1)]
      exact hrest
    · next htype =>
      split
      · next hlast =>
        rw [if_neg (fun h => h.1 hlast)]
        exact hrest
      · next hlast =>
        split
        · next heq =>
          have hfits : d.hasClass class' = true := decide_eq_true ⟨hclass, heq⟩
          rw [if_pos ⟨hlast, hlinked.mpr ⟨not_not.mp htype, hfits⟩⟩]
          rfl
        · next hne =>
          rw [if_neg (fun h => hne (of_decide_eq_true (hlinked.mp h.2).2).2)]
          exact hrest

/-- **The search over the drivers** goes by two properties, and remembers only the last driver. -/
theorem scanDrivers_eq {class' : Nat} {last : Option Nat}
    (hlast : ∀ x, last = some x → Linked drivers type (fun _ => true) x) :
    (scanDrivers drivers type class' vendor device last).map Prod.fst =
      byTwo (Linked drivers type (hasId vendor device))
        (Linked drivers type (hasClass class')) drivers.length last := by
  -- the first loop leaves no driver to be skipped in the second one
  have hids : (scanIds type vendor device 0 drivers last).1.map Prod.fst =
        first (Linked drivers type (hasId vendor device)) (drivers.length - resumeAt last)
          (resumeAt last) ∧
      (scanIds type vendor device 0 drivers last).2 = none := by
    cases last with
    | none => exact scanIds_eq List.drop_zero
    | some x =>
      rw [scanIds_skip (hlast x rfl) List.drop_zero (Nat.zero_le x)]
      rw [resumeAt, ← List.length_drop]
      exact scanIds_eq rfl
  have hclasses : (if class' = 0 then none else scanClasses type class' last 0 drivers none).map Prod.fst =
      first (fun m => last ≠ some m ∧ Linked drivers type (hasClass class') m)
        drivers.length 0 := by
    split
    · next hzero =>
      refine (first_eq_none.mpr ?_).symm
      rintro m - - ⟨-, d, -, -, hd⟩
      exact (of_decide_eq_true hd).1 hzero
    · next hclass => exact scanClasses_eq hclass List.drop_zero
  rw [byTwo_eq, ← hids.1, ← hclasses, scanDrivers]
  obtain ⟨found, hfound⟩ : ∃ found, scanIds type vendor device 0 drivers last = (found, none) :=
    ⟨_, Prod.ext rfl hids.2⟩
  rw [hfound]
  cases found <;> rfl

end Drivers

/-! ## The device functions -/

section Buses

variable (sp : ConfigSpace) (drivers : List PciDriver) (type : Int)

/-- The search at a position. The positions are the device functions below 255 of all buses, in order. -/
def searchAt (n : Nat) : Option Nat → Option Nat :=
  byTwo (fun k => Present sp (n / 255) (n % 255) ∧ FitsId sp drivers type (n / 255) (n % 255) k)
    (fun k => Present sp (n / 255) (n % 255) ∧ TakenByClass sp drivers type (n / 255) (n % 255) k)
    drivers.length

def positions : Nat := 256 * 255

variable {sp drivers type}

section

variable {bus devfn : Nat}

theorem div_position (h : devfn < 255) : (bus * 255 + devfn) / 255 = bus := by omega

theorem mod_position (h : devfn < 255) : (bus * 255 + devfn) % 255 = devfn := by omega

theorem searchAt_position (h : devfn < 255) :
    searchAt sp drivers type (bus * 255 + devfn) =
      byTwo (fun k => Present sp bus devfn ∧ FitsId sp drivers type bus devfn k)
        (fun k => Present sp bus devfn ∧ TakenByClass sp drivers type bus devfn k) drivers.length := by
  rw [searchAt, div_position h, mod_position h]

end

/-- What is remembered is a driver of the type. -/
def Resumes (drivers : List PciDriver) (type : Int) (a : Option Nat) : Prop :=
  ∀ x, a = some x → Linked drivers type (fun _ => true) x

theorem resumes_none : Resumes drivers type none := fun _ h => by cases h

theorem Linked.of_type {f : PciDriver → Bool} {k : Nat} (h : Linked drivers type f k) :
    Linked drivers type (fun _ => true) k := by
  obtain ⟨d, hd, htype, -⟩ := h
  exact ⟨d, hd, htype, rfl⟩

theorem linked_of_searchAt {n k : Nat} {a : Option Nat} (h : searchAt sp drivers type n a = some k) :
    Linked drivers type (fun _ => true) k := by
  obtain ⟨-, ⟨hid, -⟩ | ⟨hclass, -⟩⟩ := byTwo_some h
  · exact Linked.of_type hid.2
  · exact Linked.of_type hclass.2

/-- The header type that is kept is the one of the function 0 of the device. -/
def HeaderKept (sp : ConfigSpace) (bus devfn : Nat) (hdrType : UInt8) : Prop :=
  devfn % 8 ≠ 0 → hdrType = readConfigByte sp bus (devfn / 8 * 8) pciHeaderType

theorem HeaderKept.next {bus devfn : Nat} {hdrType : UInt8} (h : HeaderKept sp bus devfn hdrType) :
    HeaderKept sp bus (devfn + 1)
      (if devfn % 8 = 0 then readConfigByte sp bus devfn pciHeaderType else hdrType) := by
  intro hne
  have hbase : (devfn + 1) / 8 * 8 = devfn / 8 * 8 := by omega
  rw [hbase]
  split
  · next hzero =>
    have hself : devfn / 8 * 8 = devfn := by omega
    rw [hself]
  · next hzero => exact h hzero

section

variable {bus devfn : Nat} {hdrType : UInt8} {a : Option Nat}

theorem HeaderKept.present_iff (h : HeaderKept sp bus devfn hdrType) :
    Present sp bus devfn ↔
      ¬ (devfn % 8 ≠ 0 ∧
          (if devfn % 8 = 0 then readConfigByte sp bus devfn pciHeaderType else hdrType) &&& 0x80 = 0) ∧
        ¬ (readConfigDword sp bus devfn pciVendorId = 0xffffffff ∨
          readConfigDword sp bus devfn pciVendorId = 0) := by
  rw [Present, not_or, not_and_or, not_not]
  refine and_congr_left fun _ => ?_
  by_cases hzero : devfn % 8 = 0
  · exact iff_of_true (.inl hzero) (.inl hzero)
  · rw [if_neg hzero, h hzero]

variable (sp drivers type bus devfn a) in
/-- What `scan_drivers` finds for the device at a position, if there is one. -/
def scanAt : Option (Nat × String) :=
  if Present sp bus devfn then
    scanDrivers drivers type (classOf sp bus devfn) (vendorOf sp bus devfn) (deviceOf sp bus devfn) a
  else none

theorem searchAt_eq (hlt : devfn < 255) (h : Resumes drivers type a) :
    searchAt sp drivers type (bus * 255 + devfn) a = (scanAt sp drivers type bus devfn a).map Prod.fst := by
  rw [searchAt_position hlt, byTwo_eq, scanAt]
  by_cases hpresent : Present sp bus devfn
  · rw [if_pos hpresent, scanDrivers_eq h, byTwo_eq, first_congr (fun m => and_iff_right hpresent),
      first_congr (fun m => and_congr_right fun _ => and_iff_right hpresent)]
    rfl
  · rw [if_neg hpresent]
    refine Option.or_eq_none_iff.mpr ⟨first_eq_none.mpr ?_, first_eq_none.mpr ?_⟩
    · exact fun m _ _ hm => hpresent hm.1
    · exact fun m _ _ hm => hpresent hm.2.1

theorem scanDevfns_succ (h : HeaderKept sp bus devfn hdrType) (n : Nat) :
    ∃ hdr, HeaderKept sp bus (devfn + 1) hdr ∧
      scanDevfns sp drivers type bus (n + 1) devfn hdrType a =
        match scanAt sp drivers type bus devfn a with
        | none => scanDevfns sp drivers type bus n (devfn + 1) hdr none
        | some (k, name) =>
          (some ⟨bus, devfn, classOf sp bus devfn, vendorOf sp bus devfn, deviceOf sp bus devfn, k, name⟩, hdr,
            a) := by
  refine ⟨_, h.next, ?_⟩
  rw [scanDevfns, scanAt]
  by_cases hpresent : Present sp bus devfn
  · obtain ⟨hfunction, hvendor⟩ := h.present_iff.mp hpresent
    simp only [if_neg hfunction, if_neg hvendor, if_pos hpresent]
    rfl
  · rcases not_and_or.mp (fun hboth => hpresent (h.present_iff.mpr hboth)) with hfunction | hvendor
    · simp only [if_pos (not_not.mp hfunction), if_neg hpresent]
    · simp only [if_pos (not_not.mp hvendor), ite_self, if_neg hpresent]

end

/-- The place of what has been found. -/
def Match.place (m : Match) : Nat × Nat := (m.bus * 255 + m.devfn, m.driver)

/-- The loop over the device functions is the search over their positions. `more` positions follow on the
    other buses. -/
theorem scanDevfns_eq {bus more : Nat} {n : Nat} :
    ∀ {devfn : Nat} {hdrType : UInt8} {a : Option Nat}, devfn + n = 255 → HeaderKept sp bus devfn hdrType →
      Resumes drivers type a →
      (∀ m hdr b, scanDevfns sp drivers type bus n devfn hdrType a = (some m, hdr, b) →
        m.bus = bus ∧ m.devfn < 255 ∧
          search (searchAt sp drivers type) (n + more) (bus * 255 + devfn) a = some m.place) ∧
      (∀ hdr b, scanDevfns sp drivers type bus n devfn hdrType a = (none, hdr, b) →
        Resumes drivers type b ∧
          search (searchAt sp drivers type) (n + more) (bus * 255 + devfn) a =
            search (searchAt sp drivers type) more ((bus + 1) * 255) b) := by
  induction n with
  | zero =>
    intro devfn hdrType a hn _ hresumes
    obtain rfl : devfn = 255 := by omega
    refine ⟨fun m hdr b h => absurd (congrArg Prod.fst h) (Option.some_ne_none m).symm, fun hdr b h => ?_⟩
    obtain rfl : a = b := congrArg (fun r => r.2.2) h
    have hplace : bus * 255 + 255 = (bus + 1) * 255 := by omega
    exact ⟨hresumes, by rw [Nat.zero_add, hplace]⟩
  | succ n ih =>
    intro devfn hdrType a hn hheader hresumes
    have hlt : devfn < 255 := by omega
    have hcount : n + 1 + more = (n + more) + 1 := by omega
    have hat := @searchAt_eq sp drivers type bus devfn a hlt hresumes
    obtain ⟨hdr, hnext, hscan⟩ := @scanDevfns_succ sp drivers type bus devfn hdrType a hheader n
    rw [hscan, hcount]
    cases hfound : scanAt sp drivers type bus devfn a with
    | none =>
      rw [hfound] at hat
      rw [search_none hat, Nat.add_assoc]
      exact ih (by omega) hnext resumes_none
    | some found =>
      rw [hfound] at hat
      rw [search_some hat]
      refine ⟨fun m hdr b h => ?_, fun hdr b h => ?_⟩
      · cases congrArg Prod.fst h
        exact ⟨rfl, hlt, rfl⟩
      · cases congrArg Prod.fst h

/-- **The search over the buses** is the search over the positions from a device function on. -/
theorem scanBuses_eq {n : Nat} :
    ∀ {bus devfn : Nat} {hdrType : UInt8} {a : Option Nat}, bus + n = 256 → devfn ≤ 255 →
      HeaderKept sp bus devfn hdrType → Resumes drivers type a → 0 < n →
      (scanBuses sp drivers type n bus devfn hdrType a).map Match.place =
          search (searchAt sp drivers type) (positions - (bus * 255 + devfn)) (bus * 255 + devfn) a ∧
        ∀ m, scanBuses sp drivers type n bus devfn hdrType a = some m → m.bus < 256 ∧ m.devfn < 255 := by
  induction n with
  | zero => exact fun _ _ _ _ h => absurd h (Nat.lt_irrefl 0)
  | succ n ih =>
    intro bus devfn hdrType a hn hdevfn hheader hresumes _
    have hcount : positions - (bus * 255 + devfn) = 255 - devfn + n * 255 := by
      have hpositions : positions = 65280 := rfl
      omega
    obtain ⟨hfound, hnone⟩ := @scanDevfns_eq sp drivers type bus (n * 255) (255 - devfn) devfn hdrType a
      (by omega) hheader hresumes
    rw [hcount, scanBuses]
    split
    · next m hdr b h =>
      obtain ⟨hbus, hlt, hsearch⟩ := hfound m hdr b h
      rw [hsearch]
      refine ⟨rfl, fun m' hm' => ?_⟩
      cases hm'
      exact ⟨by omega, hlt⟩
    · next hdr b h =>
      obtain ⟨hresumes', hsearch⟩ := hnone hdr b h
      rw [hsearch]
      rcases Nat.eq_zero_or_pos n with rfl | hpos
      · exact ⟨rfl, fun m hm => by cases hm⟩
      · have hzero : HeaderKept sp (bus + 1) 0 hdr := fun h => absurd rfl h
        have hrest := ih (by omega : bus + 1 + n = 256) (Nat.zero_le 255) hzero hresumes' hpos
        have hcount' : positions - (bus + 1) * 255 = n * 255 := by
          omega
        simp only [Nat.add_zero, hcount'] at hrest
        exact hrest

/-! ## The record of the last device -/

/-- The place of the device and the driver. -/
def PciDevice.place (dev : PciDevice) : Option (Nat × Nat) :=
  dev.driver.map (fun k => (dev.bus * 255 + dev.devfn, k))

/-- The record is at the beginning, or at a device that has been found. -/
structure PciDevice.Valid (drivers : List PciDriver) (type : Int) (dev : PciDevice) : Prop where
  start : dev.driver = none → dev.useSpecified = true → dev.bus = 0 ∧ dev.devfn = 0
  found : ∀ k, dev.driver = some k → dev.bus < 256 ∧ dev.devfn < 255 ∧ Linked drivers type (fun _ => true) k

theorem linked_of_search {n : Nat} :
    ∀ {m : Nat} {a : Option Nat} {p k : Nat}, search (searchAt sp drivers type) n m a = some (p, k) →
      Linked drivers type (fun _ => true) k := by
  induction n with
  | zero => exact fun h => by cases h
  | succ n ih =>
    intro m a p k h
    cases hat : searchAt sp drivers type m a with
    | none =>
      rw [search_none hat] at h
      exact ih h
    | some b =>
      rw [search_some hat] at h
      obtain ⟨-, rfl⟩ := Prod.mk.inj (Option.some.inj h)
      exact linked_of_searchAt hat

/-- What is found is noted, and nothing is left of the last driver otherwise. -/
theorem place_of_scan {n bus devfn : Nat} {hdrType : UInt8} {a : Option Nat} (dev none' : PciDevice)
    (hnone : none'.driver = none) (hstart : none'.useSpecified = true → none'.bus = 0 ∧ none'.devfn = 0)
    (hn : bus + n = 256) (hpos : 0 < n) (hdevfn : devfn ≤ 255) (hheader : HeaderKept sp bus devfn hdrType)
    (hresumes : Resumes drivers type a) {next : PciDevice}
    (hnext : next = ((scanBuses sp drivers type n bus devfn hdrType a).map (dev.note sp)).getD none') :
    next.place = search (searchAt sp drivers type) (positions - (bus * 255 + devfn)) (bus * 255 + devfn) a ∧
      next.Valid drivers type := by
  obtain ⟨hscan, hplace⟩ := scanBuses_eq hn hdevfn hheader hresumes hpos
  subst hnext
  cases hfound : scanBuses sp drivers type n bus devfn hdrType a with
  | none =>
    rw [hfound] at hscan
    refine ⟨?_, ⟨fun _ => hstart, fun k hk => by cases (hnone.symm.trans hk)⟩⟩
    rw [← hscan]
    exact congrArg (Option.map _) hnone
  | some m =>
    rw [hfound] at hscan
    refine ⟨hscan, ⟨fun h => absurd h (Option.some_ne_none _), fun k hk => ?_⟩⟩
    obtain ⟨hbus, hlt⟩ := hplace m hfound
    cases hk
    exact ⟨hbus, hlt, linked_of_search hscan.symm⟩

theorem scanPciBus_resumed {dev : PciDevice} (h : dev.driver ≠ none ∨ dev.useSpecified = true) :
    scanPciBus sp drivers type dev =
      ((scanBuses sp drivers type (256 - dev.bus) dev.bus dev.devfn
        (readConfigByte sp dev.bus (dev.devfn / 8 * 8) pciHeaderType) dev.driver).map (dev.note sp)).getD
        { dev with driver := none, bus := 0, devfn := 0 } := by
  rw [scanPciBus, if_pos h]
  dsimp only
  split
  · next hfound => rw [hfound]; rfl
  · next hnone => rw [hnone]; rfl

theorem scanPciBus_first {dev : PciDevice} (h : ¬ (dev.driver ≠ none ∨ dev.useSpecified = true)) :
    scanPciBus sp drivers type dev =
      ((scanBuses sp drivers type 256 0 0 0 none).map (dev.note sp)).getD dev := by
  rw [scanPciBus, if_neg h]
  cases scanBuses sp drivers type 256 0 0 0 none <;> rfl

/-- **The next device and driver** are the next result of the nested search. -/
theorem scanPciBus_place {dev : PciDevice} (h : dev.Valid drivers type) :
    (scanPciBus sp drivers type dev).place = nested (searchAt sp drivers type) positions dev.place ∧
      (scanPciBus sp drivers type dev).Valid drivers type := by
  by_cases hcond : dev.driver ≠ none ∨ dev.useSpecified = true
  · have hwhere : dev.bus < 256 ∧ dev.devfn < 255 ∧ Resumes drivers type dev.driver ∧
        nested (searchAt sp drivers type) positions dev.place =
          search (searchAt sp drivers type) (positions - (dev.bus * 255 + dev.devfn))
            (dev.bus * 255 + dev.devfn) dev.driver := by
      cases hdriver : dev.driver with
      | none =>
        obtain ⟨hbus, hdevfn⟩ := h.start hdriver (hcond.resolve_left (not_not_intro hdriver))
        have hplace : dev.place = none := congrArg (Option.map _) hdriver
        rw [hbus, hdevfn, hplace]
        exact ⟨by decide, by decide, resumes_none, rfl⟩
      | some k =>
        obtain ⟨hbus, hdevfn, hlinked⟩ := h.found k hdriver
        have hplace : dev.place = some (dev.bus * 255 + dev.devfn, k) := congrArg (Option.map _) hdriver
        refine ⟨hbus, hdevfn, fun x hx => ?_, congrArg _ hplace⟩
        cases hx
        exact hlinked
    obtain ⟨hbus, hdevfn, hresumes, hnested⟩ := hwhere
    rw [hnested]
    exact place_of_scan dev { dev with driver := none, bus := 0, devfn := 0 } rfl (fun _ => ⟨rfl, rfl⟩)
      (by omega) (by omega) (Nat.le_of_lt hdevfn) (fun _ => rfl) hresumes (scanPciBus_resumed hcond)
  · obtain ⟨hdriver, hspecified⟩ := not_or.mp hcond
    have hplace : dev.place = none := congrArg (Option.map _) (not_not.mp hdriver)
    have hheader : HeaderKept sp 0 0 0 := fun hne => absurd rfl hne
    rw [hplace]
    exact place_of_scan dev dev (not_not.mp hdriver) (fun hs => absurd hs hspecified) (Nat.zero_add 256)
      (by decide) (Nat.zero_le 255) hheader resumes_none (scanPciBus_first hcond)

end Buses

end Pci
