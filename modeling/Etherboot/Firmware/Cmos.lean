import Etherboot.Lib.Memory

set_option autoImplicit false

/-! # Options in the CMOS (`firmware/linuxbios/linuxbios.c`)

The CMOS is reached through an index port and a data port; the highest bit of the index port is not part of
the index and is kept. A checksum is stored in two bytes: the complement of the sum of a range of bytes,
modulo `2^16`. `cmos_write` sets an option inside one byte and corrects the checksum by the difference.
`cmosWrite_updates` says that this is right. -/

namespace LinuxBios

open Memory

/-- The index port and the bytes. -/
structure Cmos where
  index : UInt8
  cell : Nat → UInt8

namespace Cmos

/-- `outb(v, 0x70)` -/
def select (s : Cmos) (v : Nat) : Cmos := { s with index := UInt8.ofNat v }

/-- The byte that the data port stands for. -/
def addr (s : Cmos) : Nat := s.index.toNat % 128

/-- `inb(0x71)` -/
def inData (s : Cmos) : Nat := (s.cell s.addr).toNat

/-- `outb(v, 0x71)` -/
def outData (s : Cmos) (v : Nat) : Cmos :=
  { s with cell := Function.update s.cell s.addr (UInt8.ofNat v) }

end Cmos

/-- `struct cmos_checksum`. Range and location count bits; all are byte aligned. -/
structure Checksum where
  tag : Nat
  size : Nat
  rangeStart : Nat
  rangeEnd : Nat
  location : Nat
  type : Nat

variable (ck : Checksum) (s : Cmos)

def cmosRead (offset size : Nat) : Nat × Cmos :=
  let oldAddr := s.index.toNat
  let s := s.select (offset / 8 ||| (oldAddr &&& 0x80))
  let value := s.inData
  (value >>> (offset % 8) &&& (1 <<< size - 1), s.select oldAddr)

def cmosReadChecksum : Nat × Cmos :=
  let (high, s) := cmosRead s ck.location 8
  let (low, s) := cmosRead s (ck.location + 8) 8
  ((high <<< 8 ||| low) &&& 0xffff, s)

/-- The loop of `cmos_valid`, with `n` bytes to come from the bit `i` on. -/
def sumLoop : Nat → Nat → Nat → Cmos → Nat × Cmos
  | 0, _, sum, s => (sum, s)
  | n + 1, i, sum, s =>
    let (value, s) := cmosRead s i 8
    sumLoop n (i + 8) ((sum + value) % 2 ^ 32) s

/-- How often the loop is run. -/
def Checksum.count : Nat :=
  if ck.rangeStart ≤ ck.rangeEnd then (ck.rangeEnd - ck.rangeStart) / 8 + 1 else 0

def cmosValid : Bool × Cmos :=
  if ck.tag ≠ 204 ∨ ck.type ≠ 1 ∨ ck.size ≠ 24 then (false, s)
  else
    let (sum, s) := sumLoop ck.count ck.rangeStart 0 s
    let (oldSum, s) := cmosReadChecksum ck s
    (0xffff - sum % 2 ^ 16 = oldSum, s)

def cmosWrite (offset size setting : Nat) : Cmos :=
  let shift := offset % 8
  let mask := (1 <<< size - 1) <<< shift
  let setting := (setting <<< shift) % 2 ^ 32 &&& mask
  let oldAddr := s.index.toNat
  let (sum, s) := cmosReadChecksum ck s
  let sum := 0xffff - sum
  let s := s.select (offset / 8 ||| (oldAddr &&& 0x80))
  let value := s.inData
  let sum := wsub sum value
  let value := value &&& (0xffffffff ^^^ mask) ||| setting
  let sum := (sum + value) % 2 ^ 32
  let s := s.outData value
  let sum := 0xffff - sum % 2 ^ 16
  let s := s.select (ck.location / 8 ||| (oldAddr &&& 0x80))
  let s := s.outData (sum >>> 8 &&& 0xff)
  let s := s.select ((ck.location + 8) / 8 ||| (oldAddr &&& 0x80))
  let s := s.outData (sum &&& 0xff)
  s.select oldAddr

/-! ## The ports -/

section Ports

variable {s : Cmos} {a : Nat}

theorem addr_select (h : a < 128) (old : Nat) : (s.select (a ||| (old &&& 0x80))).addr = a := by
  have hbit : (old &&& 0x80) % 2 ^ 7 = 0 := by
    rw [Nat.and_mod_two_pow]
    exact Nat.and_zero _
  have haddr : (a ||| (old &&& 0x80)) % 2 ^ 7 = a := by
    rw [Nat.or_mod_two_pow, hbit, Nat.or_zero, Nat.mod_eq_of_lt h]
  rw [Cmos.addr, Cmos.select, UInt8.toNat_ofNat']
  omega

theorem select_select (v : Nat) : (s.select v).select s.index.toNat = s := by
  rw [Cmos.select, Cmos.select, UInt8.ofNat_toNat]

theorem cmosRead_eq {offset : Nat} (h : offset / 8 < 128) (size : Nat) :
    cmosRead s offset size = ((s.cell (offset / 8)).toNat >>> (offset % 8) &&& (2 ^ size - 1), s) := by
  rw [cmosRead, select_select, Cmos.inData, addr_select h, Nat.one_shiftLeft]
  rfl

theorem cmosRead_byte (h : a < 128) : cmosRead s (8 * a) 8 = ((s.cell a).toNat, s) := by
  rw [cmosRead_eq (by omega), Nat.mul_div_cancel_left _ (by decide), Nat.mul_mod_right, Nat.shiftRight_zero,
    Nat.and_two_pow_sub_one_eq_mod, Nat.mod_eq_of_lt (s.cell a).toNat_lt]

/-- The checksum that is stored at the byte `a`. -/
def stored (cell : Nat → UInt8) (a : Nat) : Nat := (cell a).toNat * 256 + (cell (a + 1)).toNat

theorem cmosReadChecksum_eq {ck : Checksum} (h : a + 1 < 128) (ha : ck.location = 8 * a) :
    cmosReadChecksum ck s = (stored s.cell a, s) := by
  have hlow := (s.cell (a + 1)).toNat_lt
  have hhigh := (s.cell a).toNat_lt
  rw [cmosReadChecksum, ha, cmosRead_byte (by omega), show 8 * a + 8 = 8 * (a + 1) by omega]
  dsimp only
  rw [cmosRead_byte h]
  rw [← Nat.shiftLeft_add_eq_or_of_lt hlow, Nat.shiftLeft_eq, Nat.and_two_pow_sub_one_eq_mod _ 16, stored]
  exact congrArg (·, s) (Nat.mod_eq_of_lt (by omega))

/-- The sum of `n` bytes from `a` on. -/
def cellSum (cell : Nat → UInt8) : Nat → Nat → Nat
  | _, 0 => 0
  | a, n + 1 => (cell a).toNat + cellSum cell (a + 1) n

theorem sumLoop_eq (n a sum : Nat) (h : a + n ≤ 128) :
    ∃ r, sumLoop n (8 * a) sum s = (r, s) ∧ r % 2 ^ 16 = (sum + cellSum s.cell a n) % 2 ^ 16 := by
  induction n generalizing a sum with
  | zero => exact ⟨sum, rfl, rfl⟩
  | succ n ih =>
    obtain ⟨r, hr, hmod⟩ := ih (a + 1) ((sum + (s.cell a).toNat) % 2 ^ 32) (by omega)
    refine ⟨r, ?_, ?_⟩
    · rw [sumLoop, cmosRead_byte (by omega)]
      exact hr
    · rw [hmod, cellSum]
      omega

theorem cmosValid_eq {ck : Checksum} {first : Nat} (hrange : ck.rangeStart = 8 * first)
    (hcount : first + ck.count ≤ 128) (h : a + 1 < 128) (ha : ck.location = 8 * a) :
    (cmosValid ck s).1 = true ↔ (ck.tag = 204 ∧ ck.type = 1 ∧ ck.size = 24) ∧
      stored s.cell a = 0xffff - cellSum s.cell first ck.count % 2 ^ 16 := by
  obtain ⟨r, hr, hmod⟩ := @sumLoop_eq s ck.count first 0 hcount
  rw [cmosValid, hrange, hr]
  dsimp only
  rw [cmosReadChecksum_eq h ha]
  split
  · next hbad => exact iff_of_false Bool.false_ne_true (by omega)
  · next hgood =>
    rw [decide_eq_true_iff]
    omega

theorem cellSum_congr {cell cell' : Nat → UInt8} (n a : Nat)
    (hsame : ∀ x, a ≤ x → x < a + n → cell' x = cell x) : cellSum cell' a n = cellSum cell a n := by
  induction n generalizing a with
  | zero => rfl
  | succ n ih =>
    rw [cellSum, cellSum, hsame a (Nat.le_refl a) (by omega),
      ih (a + 1) (fun x hx hlt => hsame x (by omega) (by omega))]

theorem cellSum_change {cell cell' : Nat → UInt8} {c : Nat} (n a : Nat) (hc : a ≤ c ∧ c < a + n)
    (hsame : ∀ x, a ≤ x → x < a + n → x ≠ c → cell' x = cell x) :
    cellSum cell' a n + (cell c).toNat = cellSum cell a n + (cell' c).toNat := by
  induction n generalizing a with
  | zero => omega
  | succ n ih =>
    rw [cellSum, cellSum]
    rcases Nat.eq_or_lt_of_le hc.1 with rfl | hlt
    · rw [cellSum_congr n (a + 1) (fun x hx hlt => hsame x (by omega) (by omega) (by omega))]
      omega
    · have := ih (a + 1) (by omega) (fun x hx hlt => hsame x (by omega) (by omega))
      rw [hsame a (Nat.le_refl a) (by omega) (by omega)]
      omega

end Ports

/-! ## Writing an option -/

/-- The byte `value` with the field of `size` bits at `shift` set. -/
def setField (value shift size setting : Nat) : Nat :=
  value &&& (0xffffffff ^^^ (2 ^ size - 1) <<< shift) |||
    ((setting <<< shift) % 2 ^ 32 &&& (2 ^ size - 1) <<< shift)

section Bits

variable {value shift size : Nat}

theorem testBit_setField (setting : Nat) {i : Nat} (hi : i < 8) :
    (setField value shift size setting).testBit i =
      if shift ≤ i ∧ i < shift + size then setting.testBit (i - shift) else value.testBit i := by
  have hmask : ((2 ^ size - 1) <<< shift).testBit i = decide (shift ≤ i ∧ i < shift + size) := by
    rw [Nat.testBit_shiftLeft, Nat.testBit_two_pow_sub_one, ← Bool.decide_and]
    exact decide_eq_decide.mpr (by omega)
  rw [setField, Nat.testBit_or, Nat.testBit_and, Nat.testBit_and, Nat.testBit_xor, hmask,
    Nat.testBit_two_pow_sub_one 32, Nat.testBit_mod_two_pow, decide_eq_true (show i < 32 by omega)]
  split
  · next h => rw [decide_eq_true h, Nat.testBit_shiftLeft, decide_eq_true h.1]; simp
  · next h => rw [decide_eq_false h]; simp

theorem setField_lt (setting : Nat) (hvalue : value < 256) (hfit : shift + size ≤ 8) :
    setField value shift size setting < 256 := by
  have hmask : (2 ^ size - 1) <<< shift < 2 ^ 8 :=
    calc (2 ^ size - 1) <<< shift < 2 ^ size * 2 ^ shift := by
          rw [Nat.shiftLeft_eq]
          exact Nat.mul_lt_mul_of_pos_right (Nat.sub_lt (Nat.two_pow_pos size) Nat.one_pos) (Nat.two_pow_pos shift)
      _ = 2 ^ (shift + size) := by rw [← Nat.pow_add, Nat.add_comm]
      _ ≤ 2 ^ 8 := Nat.pow_le_pow_right (by decide) hfit
  exact Nat.or_lt_two_pow (Nat.lt_of_le_of_lt Nat.and_le_left hvalue) (Nat.and_lt_two_pow _ hmask)

theorem field_setField (setting : Nat) (hfit : shift + size ≤ 8) :
    setField value shift size setting >>> shift &&& (2 ^ size - 1) = setting % 2 ^ size := by
  refine Nat.eq_of_testBit_eq fun i => ?_
  rw [Nat.testBit_and, Nat.testBit_shiftRight, Nat.testBit_two_pow_sub_one, Nat.testBit_mod_two_pow]
  by_cases hi : i < size
  · rw [testBit_setField setting (by omega), if_pos (by omega), Nat.add_sub_cancel_left, Bool.and_comm]
  · simp only [hi, decide_false, Bool.and_false, Bool.false_and]

end Bits

/-- What the table promises: range and checksum are byte aligned and below 128 bytes, and the checksum is
    outside the range. The field lies within one byte of the range. -/
structure Fits (offset size : Nat) : Prop where
  start : ck.rangeStart % 8 = 0
  aligned : ck.location % 8 = 0
  range : ck.rangeEnd / 8 < 128
  below : ck.location / 8 + 1 < 128
  outside : ck.location / 8 + 1 < ck.rangeStart / 8 ∨ ck.rangeEnd / 8 < ck.location / 8
  field : offset % 8 + size ≤ 8
  inside : ck.rangeStart / 8 ≤ offset / 8 ∧ offset / 8 ≤ ck.rangeEnd / 8

/-- The bit `b` of the CMOS. -/
def Cmos.bit (b : Nat) : Bool := (s.cell (b / 8)).toNat.testBit (b % 8)

section Write

variable {ck : Checksum} {s : Cmos} {offset size : Nat}

theorem Fits.count (h : Fits ck offset size) :
    ck.rangeStart / 8 + ck.count = ck.rangeEnd / 8 + 1 := by
  have := h.start
  have := h.inside
  rw [Checksum.count]
  split <;> omega

/-- The bytes after the write. The checksum `sum` is corrected by the difference. -/
theorem cmosWrite_eq (h : Fits ck offset size) (setting : Nat) :
    ∃ sum, cmosWrite ck s offset size setting =
        { s with cell :=
          Function.update (Function.update (Function.update s.cell (offset / 8)
            (UInt8.ofNat (setField (s.cell (offset / 8)).toNat (offset % 8) size setting)))
            (ck.location / 8) (UInt8.ofNat (sum / 256))) (ck.location / 8 + 1) (UInt8.ofNat sum) } ∧
      sum < 65536 ∧ (sum + setField (s.cell (offset / 8)).toNat (offset % 8) size setting) % 2 ^ 16 =
        (stored s.cell (ck.location / 8) + (s.cell (offset / 8)).toNat) % 2 ^ 16 := by
  have hvalue := (s.cell (offset / 8)).toNat_lt
  have hnew := setField_lt setting hvalue h.field
  have haddr : offset / 8 < 128 := Nat.lt_of_le_of_lt h.inside.2 h.range
  have hlow := h.below
  have hsecond : (ck.location + 8) / 8 = ck.location / 8 + 1 := Nat.add_div_right _ (by decide)
  have hold : stored s.cell (ck.location / 8) < 65536 := by
    have := (s.cell (ck.location / 8)).toNat_lt
    have := (s.cell (ck.location / 8 + 1)).toNat_lt
    rw [stored]
    omega
  rw [cmosWrite, cmosReadChecksum_eq h.below (show ck.location = 8 * (ck.location / 8) by have := h.aligned; omega)]
  simp only [Cmos.inData, Cmos.outData, hsecond, addr_select haddr, addr_select hlow,
    addr_select (Nat.lt_of_succ_lt hlow), Nat.one_shiftLeft]
  rw [show (s.select (offset / 8 ||| (s.index.toNat &&& 0x80))).cell = s.cell from rfl]
  rw [← setField]
  generalize setField (s.cell (offset / 8)).toNat (offset % 8) size setting = new at hnew ⊢
  generalize hsum : 0xffff - (wsub (0xffff - stored s.cell (ck.location / 8)) (s.cell (offset / 8)).toNat + new) %
    2 ^ 32 % 2 ^ 16 = sum
  refine ⟨sum, ?_, ?_, ?_⟩
  · have hhigh : sum >>> 8 &&& 0xff = sum / 256 := by
      rw [Nat.shiftRight_eq_div_pow, Nat.and_two_pow_sub_one_eq_mod _ 8, Nat.mod_eq_of_lt (by omega)]
    rw [hhigh, Nat.and_two_pow_sub_one_eq_mod _ 8, UInt8.ofNat_mod_size, Cmos.select, UInt8.ofNat_toNat]
    rfl
  · omega
  · rw [wsub] at hsum
    omega

/-- A setting is read back, the checksum stays valid, and no other bit outside the checksum changes. -/
theorem cmosWrite_updates (h : Fits ck offset size) (hvalid : (cmosValid ck s).1 = true) (setting : Nat) :
    (cmosValid ck (cmosWrite ck s offset size setting)).1 = true ∧
      (cmosRead (cmosWrite ck s offset size setting) offset size).1 = setting % 2 ^ size ∧
      (∀ b, b / 8 ≠ ck.location / 8 → b / 8 ≠ ck.location / 8 + 1 → ¬ (offset ≤ b ∧ b < offset + size) →
        (cmosWrite ck s offset size setting).bit b = s.bit b) ∧
      (cmosWrite ck s offset size setting).index = s.index := by
  have hrange := h.count
  have hstart := h.start
  have haligned := h.aligned
  have hbelow := h.below
  have hend := h.range
  have houtside := h.outside
  have hinside := h.inside
  have hnew := setField_lt setting (s.cell (offset / 8)).toNat_lt h.field
  have hcorrect (t : Cmos) := @cmosValid_eq t _ ck (ck.rangeStart / 8) (by omega) (by omega) hbelow (by omega)
  obtain ⟨hrecord, hsum⟩ := (hcorrect s).mp hvalid
  obtain ⟨sum, heq, hlt, hmod⟩ := @cmosWrite_eq ck s offset size h setting
  generalize hs : cmosWrite ck s offset size setting = s' at heq ⊢
  have hcell := congrArg Cmos.cell heq
  dsimp only at hcell
  have hfield : (s'.cell (offset / 8)).toNat =
      setField (s.cell (offset / 8)).toNat (offset % 8) size setting := by
    rw [hcell, Function.update_of_ne (by omega), Function.update_of_ne (by omega), Function.update_self,
      UInt8.toNat_ofNat', Nat.mod_eq_of_lt hnew]
  have hother (x : Nat) (hx : x ≠ offset / 8) (ha : x ≠ ck.location / 8) (hb : x ≠ ck.location / 8 + 1) :
      s'.cell x = s.cell x := by
    rw [hcell, Function.update_of_ne hb, Function.update_of_ne ha, Function.update_of_ne hx]
  have hstored : stored s'.cell (ck.location / 8) = sum := by
    rw [stored, hcell, Function.update_self, Function.update_of_ne (by omega), Function.update_self,
      UInt8.toNat_ofNat', UInt8.toNat_ofNat']
    omega
  refine ⟨?_, ?_, ?_, ?_⟩
  · have hchange := cellSum_change ck.count (ck.rangeStart / 8) (c := offset / 8) (by omega)
      (fun x hx hlt hne => hother x hne (by omega) (by omega))
    rw [hcorrect s', hstored]
    exact ⟨hrecord, by omega⟩
  · rw [cmosRead_eq (by omega), hfield]
    exact field_setField setting h.field
  · intro b ha hb hne
    rw [Cmos.bit, Cmos.bit]
    by_cases hx : b / 8 = offset / 8
    · rw [hx, hfield, testBit_setField setting (by omega), if_neg (by omega)]
    · rw [hother _ hx ha hb]
  · rw [heq]

end Write

/-- Three bits of the second byte of a range of two bytes. -/
theorem cmosWrite_three :
    let ck : Checksum := ⟨204, 24, 8, 16, 32, 1⟩
    let s : Cmos := ⟨0x8f, fun a => if a = 4 ∨ a = 5 then 0xff else 0⟩
    (cmosValid ck s).1 = true ∧ (cmosValid ck (cmosWrite ck s 18 3 13)).1 = true ∧
      (cmosRead (cmosWrite ck s 18 3 13) 18 3).1 = 5 := by
  intro ck s
  have hvalid : (cmosValid ck s).1 = true := by decide
  have h := @cmosWrite_updates ck s 18 3 (by constructor <;> decide) hvalid 13
  exact ⟨hvalid, h.1, h.2.1⟩

end LinuxBios
