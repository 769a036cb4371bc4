import Etherboot.Firmware.MemorySizes
import Mathlib.Tactic.Ring

set_option autoImplicit false

/-! # Hiding memory from the operating system (`arch/i386/firmware/pcbios/e820mangler.S`)

The BIOS calls that report memory are intercepted, and the memory of Etherboot and of its heap is taken out
of the answers. `exclude_memory_range` leaves the larger part of a range on one side of a hidden one, or the
part below it if the base must stay. It works on 32-bit registers; the other answers are converted to bytes
and back.

`exclude_spec` says what one exclusion leaves. From it, `intercept_hides` follows for all three calls. -/

namespace E820Mangler

open Memsizes (smap)

/-! ## Excluding a range -/

/-- Base and length in two registers. -/
structure Range where
  base : UInt32
  len : UInt32
  deriving DecidableEq, Repr

/-- `use_prefix`: `ecx` is the end of the range, `ebx` the length of what lies below the hidden one. -/
def useBelow (eax ecx ebx : UInt32) : Range :=
  let ebx := eax + ebx
  let ecx := if ebx > ecx then ecx else ebx
  ⟨eax, ecx - eax⟩

/-- `use_suffix`: `edx` is the length of what lies above the hidden range. -/
def useAbove (eax ecx edx : UInt32) : Range :=
  let edx := ecx + -edx
  let eax := if edx < eax then eax else edx
  ⟨eax, ecx - eax⟩

/-- `exclude_memory_range`. If `di` is not 0 the base stays as it is. -/
def excludeMemoryRange (target excl : Range) (di : UInt16) : Range :=
  let eax := target.base
  let ecx := target.len + eax
  let edx := excl.len + excl.base
  let ebx := if excl.base > eax then excl.base - eax else 0
  if di ≠ 0 then
    if edx ≤ eax then ⟨eax, ecx - eax⟩ else useBelow eax ecx ebx
  else
    let edx := -(if edx < ecx then edx - ecx else 0)
    if edx ≤ ebx then useBelow eax ecx ebx else useAbove eax ecx edx

/-- `_hide_memory`. -/
structure Hidden where
  text : Range
  heap : Range

/-- `exclude_hidden_memory_ranges`. -/
def excludeHiddenMemoryRanges (h : Hidden) (target : Range) (di : UInt16) : Range :=
  [h.text, h.heap].foldl (fun r excl => excludeMemoryRange r excl di) target

/-! ## The intercepts -/

/-- The registers that the old routine returns with. -/
structure Cpu where
  eax : UInt32
  ebx : UInt32
  ecx : UInt32
  edx : UInt32
  cf : Bool
  deriving DecidableEq, Repr

/-- Base and length in the buffer of an E820 call. -/
structure Buffer where
  baseLow : UInt32
  baseHigh : UInt32
  lenLow : UInt32
  lenHigh : UInt32
  deriving DecidableEq, Repr


variable (r : UInt32) (w : UInt16)

/-- A write to the low word of a register. -/
def setLow : UInt32 := r / 0x10000 * 0x10000 + w.toUInt32

/-- `intercept_e820` -/
def interceptE820 (h : Hidden) (c : Cpu) (buf : Buffer) : Buffer :=
  if c.eax ≠ smap then buf
  else if buf.baseHigh ≠ 0 then buf
  else
    let r := excludeHiddenMemoryRanges h ⟨buf.baseLow, buf.lenLow⟩ 0
    { buf with baseLow := r.base, lenLow := r.len }

/-- `e801_adjust`: `ax` counts KB from 1MB on, `bx` 64KB from 16MB on. The word of `eax` that was pushed is
    popped into `cx` in between, and replaced before `eax` is popped. -/
def e801Adjust (h : Hidden) (c : Cpu) : Cpu :=
  let ecx := setLow c.ecx c.ebx.toUInt16 <<< 16
  let r := excludeHiddenMemoryRanges h ⟨0x1000000, ecx⟩ 1
  let ecx := r.len >>> 16
  let bx := ecx.toUInt16
  let ecx := setLow ecx c.eax.toUInt16 <<< 10
  let r := excludeHiddenMemoryRanges h ⟨r.base >>> 4, ecx⟩ 1
  let ecx := r.len >>> 10
  { c with eax := setLow c.eax ecx.toUInt16, ebx := setLow c.ebx bx }

/-- `xchgw %ax, %cx; xchgw %bx, %dx` -/
def exchange (c : Cpu) : Cpu :=
  { c with
    eax := setLow c.eax c.ecx.toUInt16, ecx := setLow c.ecx c.eax.toUInt16,
    ebx := setLow c.ebx c.edx.toUInt16, edx := setLow c.edx c.ebx.toUInt16 }

/-- `intercept_e801` -/
def interceptE801 (h : Hidden) (c : Cpu) : Cpu :=
  exchange (e801Adjust h (exchange (e801Adjust h c)))

/-- `intercept_88`: `bx` is restored. -/
def intercept88 (h : Hidden) (c : Cpu) : Cpu :=
  { e801Adjust h c with ebx := setLow (e801Adjust h c).ebx c.ebx.toUInt16 }

/-- `_intercept_int15`, behind the call of the old routine; `ax` is the function that was called. -/
def interceptInt15 (h : Hidden) (ax : UInt16) (c : Cpu) (buf : Buffer) : Cpu × Buffer :=
  if c.cf then (c, buf)
  else if ax = 0xe820 then (c, interceptE820 h c buf)
  else if ax = 0xe801 then (interceptE801 h c, buf)
  else if ax >>> 8 = 0x88 then (intercept88 h c, buf)
  else (c, buf)

/-! ## What an answer describes -/

/-- A range of addresses in bytes. -/
structure Region where
  base : Nat
  len : Nat
  deriving DecidableEq, Repr

def Range.region (r : Range) : Region := ⟨r.base.toNat, r.len.toNat⟩

def Region.Has (r : Region) (a : Nat) : Prop := r.base ≤ a ∧ a < r.base + r.len

/-- The memory that an answer describes. -/
def regions (ax : UInt16) (c : Cpu) (buf : Buffer) : List Region :=
  if c.cf then []
  else if ax = 0xe820 then
    if c.eax = smap then
      [⟨buf.baseLow.toNat + 2 ^ 32 * buf.baseHigh.toNat, buf.lenLow.toNat + 2 ^ 32 * buf.lenHigh.toNat⟩]
    else []
  else if ax = 0xe801 then
    [⟨2 ^ 20, c.eax.toUInt16.toNat * 1024⟩, ⟨2 ^ 24, c.ebx.toUInt16.toNat * 65536⟩,
      ⟨2 ^ 20, c.ecx.toUInt16.toNat * 1024⟩, ⟨2 ^ 24, c.edx.toUInt16.toNat * 65536⟩]
  else if ax >>> 8 = 0x88 then [⟨2 ^ 20, c.eax.toUInt16.toNat * 1024⟩]
  else []

/-- A region is left of another that has nothing of the hidden ranges. -/
structure Hides (h : Hidden) (before after : Region) : Prop where
  within : ∀ a, after.Has a → before.Has a
  text : ∀ a, after.Has a → ¬ h.text.region.Has a
  heap : ∀ a, after.Has a → ¬ h.heap.region.Has a

/-! ## One exclusion -/

section Words

variable {a b : UInt32}

theorem toNat_add_of_lt (h : a.toNat + b.toNat < 2 ^ 32) : (a + b).toNat = a.toNat + b.toNat := by
  rw [UInt32.toNat_add, Nat.mod_eq_of_lt h]

theorem toNat_sub_of_ge (h : b.toNat ≤ a.toNat) : (a - b).toNat = a.toNat - b.toNat :=
  UInt32.toNat_sub_of_le _ _ (UInt32.le_iff_toNat_le.mpr h)

theorem toNat_above (a b : UInt32) : (if a > b then a - b else 0).toNat = a.toNat - b.toNat := by
  split
  · next h =>
    have h : b.toNat < a.toNat := UInt32.lt_iff_toNat_lt.mp h
    exact toNat_sub_of_ge (Nat.le_of_lt h)
  · next h =>
    have h : ¬ b.toNat < a.toNat := fun hlt => h (UInt32.lt_iff_toNat_lt.mpr hlt)
    show 0 = _
    omega

theorem toNat_below (a b : UInt32) : (-(if a < b then a - b else 0)).toNat = b.toNat - a.toNat := by
  have hneg : -(if a < b then a - b else 0) = if b > a then b - a else 0 := by
    split
    · exact UInt32.neg_sub
    · exact UInt32.neg_zero
  rw [hneg, toNat_above]

end Words

theorem useBelow_spec {eax ecx ebx : UInt32} (hle : eax.toNat ≤ ecx.toNat)
    (hadd : eax.toNat + ebx.toNat < 2 ^ 32) :
    (useBelow eax ecx ebx).base = eax ∧
      (useBelow eax ecx ebx).len.toNat = min (eax.toNat + ebx.toNat) ecx.toNat - eax.toNat := by
  refine ⟨rfl, ?_⟩
  have hend := toNat_add_of_lt hadd
  show ((if eax + ebx > ecx then ecx else eax + ebx) - eax).toNat = _
  split
  · next h =>
    have h : ecx.toNat < (eax + ebx).toNat := UInt32.lt_iff_toNat_lt.mp h
    rw [toNat_sub_of_ge hle]
    omega
  · next h =>
    have h : ¬ ecx.toNat < (eax + ebx).toNat := fun hlt => h (UInt32.lt_iff_toNat_lt.mpr hlt)
    rw [toNat_sub_of_ge (by omega), hend]
    omega

theorem useAbove_spec {eax ecx edx : UInt32} (hle : eax.toNat ≤ ecx.toNat) (hedx : edx.toNat ≤ ecx.toNat) :
    (useAbove eax ecx edx).base.toNat = max eax.toNat (ecx.toNat - edx.toNat) ∧
      (useAbove eax ecx edx).len.toNat = ecx.toNat - max eax.toNat (ecx.toNat - edx.toNat) := by
  have hstart : (ecx + -edx).toNat = ecx.toNat - edx.toNat := by
    rw [← UInt32.sub_eq_add_neg, toNat_sub_of_ge hedx]
  have hbase : (if ecx + -edx < eax then eax else ecx + -edx).toNat =
      max eax.toNat (ecx.toNat - edx.toNat) := by
    split
    · next h =>
      have h : (ecx + -edx).toNat < eax.toNat := UInt32.lt_iff_toNat_lt.mp h
      omega
    · next h =>
      have h : ¬ (ecx + -edx).toNat < eax.toNat := fun hlt => h (UInt32.lt_iff_toNat_lt.mpr hlt)
      omega
  refine ⟨hbase, ?_⟩
  show (ecx - (if ecx + -edx < eax then eax else ecx + -edx)).toNat = _
  rw [toNat_sub_of_ge (by omega), hbase]

/-- The part of a region below an address. -/
def Region.below (r : Region) (x : Nat) : Region := ⟨r.base, min r.len (x - r.base)⟩

/-- The part of a region from an address on. -/
def Region.above (r : Region) (x : Nat) : Region := ⟨max r.base x, r.base + r.len - max r.base x⟩

/-- The longer one of two regions, the first one on a tie. -/
def Region.longer (r s : Region) : Region := if s.len ≤ r.len then r else s

section Exclude

variable {target excl : Range} {di : UInt16} (ht : target.base.toNat + target.len.toNat < 2 ^ 32)

include ht

theorem toNat_end : (target.len + target.base).toNat = target.base.toNat + target.len.toNat := by
  rw [toNat_add_of_lt (by omega), Nat.add_comm]

open Region Range

theorem useBelow_region (x : UInt32) :
    (useBelow target.base (target.len + target.base) (if x > target.base then x - target.base else 0)).region =
      target.region.below x.toNat := by
  have hend := toNat_end ht
  have hbelow := toNat_above x target.base
  have hx := x.toNat_lt
  generalize (if x > target.base then x - target.base else 0) = ebx at hbelow ⊢
  generalize target.len + target.base = ecx at hend ⊢
  obtain ⟨hbase, hlen⟩ := @useBelow_spec target.base ecx ebx (by omega) (by omega)
  simp only [region, below, hbase, hlen, Region.mk.injEq, true_and]
  omega

variable (he : excl.base.toNat + excl.len.toNat < 2 ^ 32)

include he

/-- With `di` clear, the longer one of what lies below and of what lies above the hidden range. It is clipped
    against the target, which also gives the whole target if the hidden range is outside. -/
theorem exclude_either (hdi : di = 0) :
    (excludeMemoryRange target excl di).region =
      if target.base.toNat + target.len.toNat - (excl.base.toNat + excl.len.toNat) ≤
          excl.base.toNat - target.base.toNat then
        target.region.below excl.base.toNat
      else target.region.above (excl.base.toNat + excl.len.toNat) := by
  have hend := toNat_end ht
  have hxend := toNat_end he
  have hpart := useBelow_region ht excl.base
  have hbelow := toNat_above excl.base target.base
  have habove := toNat_below (excl.len + excl.base) (target.len + target.base)
  rw [excludeMemoryRange]
  dsimp only
  rw [if_neg (fun h => h hdi)]
  generalize (if excl.base > target.base then excl.base - target.base else 0) = ebx at hbelow hpart ⊢
  generalize -(if excl.len + excl.base < target.len + target.base then
    excl.len + excl.base - (target.len + target.base) else 0) = edx at habove ⊢
  have hle : edx ≤ ebx ↔ target.base.toNat + target.len.toNat - (excl.base.toNat + excl.len.toNat) ≤
      excl.base.toNat - target.base.toNat := by
    rw [UInt32.le_iff_toNat_le, hbelow, habove, hend, hxend]
  by_cases h : edx ≤ ebx
  · rw [if_pos h, if_pos (hle.mp h), hpart]
  · have hnot := mt hle.mpr h
    obtain ⟨hbase, hlen⟩ := @useAbove_spec target.base (target.len + target.base) edx (by omega) (by omega)
    rw [if_neg h, if_neg hnot]
    simp only [region, above, hbase, hlen, Region.mk.injEq]
    omega

/-- With `di` set, what lies below the hidden range, or all of it if the hidden range lies below. -/
theorem exclude_high (hdi : di ≠ 0) :
    (excludeMemoryRange target excl di).region =
      if excl.base.toNat + excl.len.toNat ≤ target.base.toNat then target.region
      else target.region.below excl.base.toNat := by
  have hend := toNat_end ht
  have hle : excl.len + excl.base ≤ target.base ↔ excl.base.toNat + excl.len.toNat ≤ target.base.toNat := by
    rw [UInt32.le_iff_toNat_le, toNat_end he]
  rw [excludeMemoryRange]
  dsimp only
  rw [if_pos hdi]
  by_cases h : excl.len + excl.base ≤ target.base
  · rw [if_pos h, if_pos (hle.mp h)]
    simp only [region, Region.mk.injEq, true_and]
    rw [toNat_sub_of_ge (by omega)]
    omega
  · rw [if_neg h, if_neg (mt hle.mpr h), useBelow_region ht]

/-- **One exclusion.** The rest lies in the range and on one side of the hidden one. -/
theorem exclude_spec (di : UInt16) :
    target.base.toNat ≤ (excludeMemoryRange target excl di).base.toNat ∧
      (excludeMemoryRange target excl di).base.toNat + (excludeMemoryRange target excl di).len.toNat ≤
        target.base.toNat + target.len.toNat ∧
      ((excludeMemoryRange target excl di).len.toNat = 0 ∨
        (excludeMemoryRange target excl di).base.toNat + (excludeMemoryRange target excl di).len.toNat ≤
          excl.base.toNat ∨
        excl.base.toNat + excl.len.toNat ≤ (excludeMemoryRange target excl di).base.toNat) := by
  by_cases hdi : di = 0
  · have h := exclude_either ht he hdi
    split at h <;> simp only [region, below, above, Region.mk.injEq] at h <;> omega
  · have h := exclude_high ht he hdi
    split at h <;> simp only [region, below, Region.mk.injEq] at h <;> omega

end Exclude

/-! ## The exact result of one exclusion -/

def Region.Disjoint (r s : Region) : Prop := ∀ a, r.Has a → ¬ s.Has a

theorem Region.disjoint_iff {r s : Region} (hs : 0 < s.len) :
    r.Disjoint s ↔ r.len = 0 ∨ r.base + r.len ≤ s.base ∨ s.base + s.len ≤ r.base := by
  simp only [Region.Disjoint, Region.Has]
  constructor
  · intro h
    -- the first address of both, if there is one
    have := h (max r.base s.base)
    omega
  · intro h a ha
    omega

theorem Range.region_inj {r s : Range} (h : r.region = s.region) : r = s := by
  obtain ⟨base, len⟩ := r
  obtain ⟨base', len'⟩ := s
  simp only [region, Region.mk.injEq, UInt32.toNat_inj] at h
  rw [h.1, h.2]

/-- If the regions overlap, the lengths of the two parts compare like the differences that are computed. -/
theorem longer_of_overlap {r s : Region} (hs : 0 < s.len) (h : ¬ r.Disjoint s) :
    (r.below s.base).longer (r.above (s.base + s.len)) =
      if r.base + r.len - (s.base + s.len) ≤ s.base - r.base then r.below s.base
      else r.above (s.base + s.len) := by
  rw [Region.disjoint_iff hs] at h
  have hle : (r.above (s.base + s.len)).len ≤ (r.below s.base).len ↔
      r.base + r.len - (s.base + s.len) ≤ s.base - r.base := by
    simp only [Region.above, Region.below]
    omega
  simp only [Region.longer, hle]

/-- **What one exclusion leaves.** With `di` clear a range that is disjoint from the hidden one stays as it is,
    and of another one the longer part is left, the lower one on a tie; nothing is left of a range that is
    covered. With `di` set the base stays, and the length is the largest for which the range stays inside and,
    unless the hidden range lies below it, ends where that begins. -/
theorem exclude_result (target excl : Range) (di : UInt16)
    (ht : target.base.toNat + target.len.toNat < 2 ^ 32) (he : excl.base.toNat + excl.len.toNat < 2 ^ 32)
    (hne : excl.len ≠ 0) :
    (di = 0 →
      (target.region.Disjoint excl.region → excludeMemoryRange target excl di = target) ∧
      (¬ target.region.Disjoint excl.region →
        (excludeMemoryRange target excl di).region =
          (target.region.below excl.base.toNat).longer
            (target.region.above (excl.base.toNat + excl.len.toNat))) ∧
      ((∀ a, target.region.Has a → excl.region.Has a) → (excludeMemoryRange target excl di).len = 0)) ∧
    (di ≠ 0 →
      (excludeMemoryRange target excl di).base = target.base ∧
      IsGreatest {n | n ≤ target.len.toNat ∧
          (excl.base.toNat + excl.len.toNat ≤ target.base.toNat ∨
            target.base.toNat + n ≤ max target.base.toNat excl.base.toNat)}
        (excludeMemoryRange target excl di).len.toNat) := by
  have hlen : 0 < excl.region.len := Nat.pos_of_ne_zero fun h => hne (UInt32.toNat_inj.mp h)
  constructor
  · intro hdi
    have hresult := exclude_either ht he hdi
    refine ⟨?_, ?_, ?_⟩
    · intro hdisj
      rw [Region.disjoint_iff hlen] at hdisj
      apply Range.region_inj
      rw [hresult]
      simp only [Range.region, Region.below, Region.above] at hdisj ⊢
      split <;> simp only [Region.mk.injEq, true_and] <;> omega
    · intro hover
      rw [hresult]
      exact (longer_of_overlap hlen hover).symm
    · intro hcover
      have hfirst := hcover target.base.toNat
      have hlast := hcover (target.base.toNat + target.len.toNat - 1)
      have hzero : (excludeMemoryRange target excl di).len.toNat = 0 := by
        simp only [Range.region, Region.Has] at hfirst hlast
        split at hresult <;>
          simp only [Range.region, Region.below, Region.above, Region.mk.injEq] at hresult <;> omega
      exact UInt32.toNat_inj.mp hzero
  · intro hdi
    have hresult := exclude_high ht he hdi
    refine ⟨?_, ?_⟩
    · apply UInt32.toNat_inj.mp
      split at hresult <;> exact congrArg Region.base hresult
    · split at hresult <;> simp only [Range.region, Region.below, Region.mk.injEq] at hresult <;>
        refine ⟨⟨by omega, by omega⟩, ?_⟩ <;> rintro n ⟨hn, hn'⟩ <;> omega

/-- Etherboot near the start of a range: the part above it is the longer one. -/
theorem exclude_result_early :
    excludeMemoryRange ⟨0x8000, 0x1000⟩ ⟨0x8100, 0x200⟩ 0 = ⟨0x8300, 0xd00⟩ := by
  have hover : ¬ (Range.region ⟨0x8000, 0x1000⟩).Disjoint (Range.region ⟨0x8100, 0x200⟩) := by
    intro h
    exact h 0x8100 (by unfold Region.Has; decide) (by unfold Region.Has; decide)
  exact Range.region_inj (((exclude_result ⟨0x8000, 0x1000⟩ ⟨0x8100, 0x200⟩ 0 (by decide) (by decide)
    (by decide)).1 rfl).2.1 hover)

theorem exclude_base (target excl : Range) {di : UInt16} (h : di ≠ 0) :
    (excludeMemoryRange target excl di).base = target.base := by
  simp only [excludeMemoryRange, useBelow]
  rw [if_pos h]
  split <;> rfl

/-! ## Both exclusions -/

/-- The hidden ranges end below 4GB. -/
structure Hidden.Below (h : Hidden) : Prop where
  text : h.text.base.toNat + h.text.len.toNat < 2 ^ 32
  heap : h.heap.base.toNat + h.heap.len.toNat < 2 ^ 32

section Hidden

variable {h : Hidden}

theorem excludeHidden_base (target : Range) {di : UInt16} (hdi : di ≠ 0) :
    (excludeHiddenMemoryRanges h target di).base = target.base :=
  (exclude_base _ _ hdi).trans (exclude_base _ _ hdi)

theorem excludeHidden_hides (hh : h.Below) {target : Range} (di : UInt16)
    (ht : target.base.toNat + target.len.toNat < 2 ^ 32) :
    Hides h target.region (excludeHiddenMemoryRanges h target di).region := by
  obtain ⟨hlo, hhi, htext⟩ := exclude_spec ht hh.text di
  obtain ⟨hlo', hhi', hheap⟩ := exclude_spec (Nat.lt_of_le_of_lt hhi ht) hh.heap di
  refine ⟨?_, ?_, ?_⟩
  · rintro a ⟨ha, ha'⟩
    exact ⟨Nat.le_trans hlo (Nat.le_trans hlo' ha), Nat.lt_of_lt_of_le ha' (Nat.le_trans hhi' hhi)⟩
  · rintro a ⟨ha, ha'⟩ ⟨hx, hx'⟩
    have ha := Nat.le_trans hlo' ha
    have ha' := Nat.lt_of_lt_of_le ha' hhi'
    have hx : h.text.base.toNat ≤ a := hx
    have hx' : a < h.text.base.toNat + h.text.len.toNat := hx'
    omega
  · rintro a ⟨ha, ha'⟩ ⟨hx, hx'⟩
    have ha : (excludeMemoryRange (excludeMemoryRange target h.text di) h.heap di).base.toNat ≤ a := ha
    have ha' : a < (excludeMemoryRange (excludeMemoryRange target h.text di) h.heap di).base.toNat +
      (excludeMemoryRange (excludeMemoryRange target h.text di) h.heap di).len.toNat := ha'
    have hx : h.heap.base.toNat ≤ a := hx
    have hx' : a < h.heap.base.toNat + h.heap.len.toNat := hx'
    omega

theorem Hides.shrink {before : Region} {base len len' : Nat} (hhides : Hides h before ⟨base, len⟩)
    (hle : len' ≤ len) : Hides h before ⟨base, len'⟩ := by
  have hmore (a : Nat) (ha : Region.Has ⟨base, len'⟩ a) : Region.Has ⟨base, len⟩ a :=
    ⟨ha.1, Nat.lt_of_lt_of_le ha.2 (Nat.add_le_add_left hle base)⟩
  exact ⟨fun a ha => hhides.within a (hmore a ha), fun a ha => hhides.text a (hmore a ha),
    fun a ha => hhides.heap a (hmore a ha)⟩

end Hidden

/-! ## Words in registers -/

theorem toNat_setLow :
    (setLow r w).toNat = r.toNat / 0x10000 * 0x10000 + w.toNat := by
  have hr := r.toNat_lt
  have hw := w.toNat_lt
  rw [setLow, UInt32.toNat_add, UInt32.toNat_mul, UInt32.toNat_div, UInt16.toNat_toUInt32]
  show (r.toNat / 0x10000 * 0x10000 % 2 ^ 32 + w.toNat) % 2 ^ 32 = _
  omega

@[simp] theorem setLow_toUInt16 : (setLow r w).toUInt16 = w := by
  apply UInt16.toNat_inj.mp
  have hw := w.toNat_lt
  rw [UInt32.toNat_toUInt16, toNat_setLow]
  omega

/-- Only the word that was put in is left. -/
theorem toNat_setLow_shift16 : (setLow r w <<< 16).toNat = w.toNat * 65536 := by
  have hw := w.toNat_lt
  rw [UInt32.toNat_shiftLeft, toNat_setLow]
  show ((r.toNat / 0x10000 * 0x10000 + w.toNat) <<< 16) % 2 ^ 32 = _
  omega

/-- The high word is zero already. -/
theorem toNat_setLow_shift10 {r : UInt32} (hr : r.toNat < 65536) (w : UInt16) :
    (setLow r w <<< 10).toNat = w.toNat * 1024 := by
  have hw := w.toNat_lt
  rw [UInt32.toNat_shiftLeft, toNat_setLow]
  show ((r.toNat / 0x10000 * 0x10000 + w.toNat) <<< 10) % 2 ^ 32 = _
  omega

theorem toNat_shift16 : (r >>> 16).toNat = r.toNat / 65536 := by
  rw [UInt32.toNat_shiftRight]
  show r.toNat >>> 16 = _
  rw [Nat.shiftRight_eq_div_pow]

theorem toNat_shift10 : (r >>> 10).toNat = r.toNat / 1024 := by
  rw [UInt32.toNat_shiftRight]
  show r.toNat >>> 10 = _
  rw [Nat.shiftRight_eq_div_pow]

/-! ## The answers -/

section Answers

variable {h : Hidden}

theorem truncated_hides (hh : h.Below) {base len : UInt32} {n : Nat} (hn : base.toNat = n)
    (hlt : n + len.toNat < 2 ^ 32) :
    Hides h ⟨n, len.toNat⟩ ⟨n, (excludeHiddenMemoryRanges h ⟨base, len⟩ 1).len.toNat⟩ := by
  subst hn
  have hhides : Hides h ⟨base.toNat, len.toNat⟩ (excludeHiddenMemoryRanges h ⟨base, len⟩ 1).region :=
    @excludeHidden_hides h hh ⟨base, len⟩ 1 hlt
  rw [Range.region, excludeHidden_base _ (by decide)] at hhides
  exact hhides

theorem Region.base_eq (base len len' : Nat) : Region.base ⟨base, len⟩ = Region.base ⟨base, len'⟩ := rfl

theorem e801Adjust_bx (hh : h.Below) (c : Cpu) (hlt : 2 ^ 24 + c.ebx.toUInt16.toNat * 65536 < 2 ^ 32) :
    Hides h ⟨2 ^ 24, c.ebx.toUInt16.toNat * 65536⟩
      ⟨2 ^ 24, (e801Adjust h c).ebx.toUInt16.toNat * 65536⟩ := by
  simp only [e801Adjust, setLow_toUInt16]
  have hlen := toNat_setLow_shift16 c.ecx c.ebx.toUInt16
  generalize setLow c.ecx c.ebx.toUInt16 <<< 16 = ecx at hlen ⊢
  rw [← hlen] at hlt ⊢
  have hbase : (0x1000000 : UInt32).toNat = 2 ^ 24 := by decide
  refine Hides.shrink (truncated_hides hh hbase hlt) ?_
  rw [UInt32.toNat_toUInt16, toNat_shift16]
  omega

/-- The base for the second part is shifted from 16MB to 1MB, since it is kept. -/
theorem e801Adjust_ax (hh : h.Below) (c : Cpu) :
    Hides h ⟨2 ^ 20, c.eax.toUInt16.toNat * 1024⟩
      ⟨2 ^ 20, (e801Adjust h c).eax.toUInt16.toNat * 1024⟩ := by
  simp only [e801Adjust, setLow_toUInt16, excludeHidden_base _ (show (1 : UInt16) ≠ 0 by decide)]
  generalize (excludeHiddenMemoryRanges h ⟨0x1000000, setLow c.ecx c.ebx.toUInt16 <<< 16⟩ 1).len = first
  have hfirst : (first >>> 16).toNat < 65536 := by
    have := first.toNat_lt
    rw [toNat_shift16]
    omega
  have hlen := toNat_setLow_shift10 hfirst c.eax.toUInt16
  have hax := c.eax.toUInt16.toNat_lt
  generalize setLow (first >>> 16) c.eax.toUInt16 <<< 10 = ecx at hlen ⊢
  rw [← hlen]
  have hbase : ((0x1000000 : UInt32) >>> 4).toNat = 2 ^ 20 := by decide
  refine Hides.shrink (truncated_hides hh hbase (by omega)) ?_
  rw [UInt32.toNat_toUInt16, toNat_shift10]
  omega

theorem e801Adjust_rest (h : Hidden) (c : Cpu) :
    (e801Adjust h c).ecx = c.ecx ∧ (e801Adjust h c).edx = c.edx ∧ (e801Adjust h c).cf = c.cf := by
  -- the new values are hidden from the kernel, which would compare them with the old ones
  obtain ⟨eax, ebx, heq⟩ : ∃ eax ebx, e801Adjust h c = { c with eax := eax, ebx := ebx } := ⟨_, _, rfl⟩
  rw [heq]
  exact ⟨rfl, rfl, rfl⟩

theorem Cpu.setEbx_rest (c : Cpu) (ebx : UInt32) :
    Cpu.eax { c with ebx := ebx } = c.eax ∧ Cpu.cf { c with ebx := ebx } = c.cf := ⟨rfl, rfl⟩

theorem intercept88_rest (h : Hidden) (c : Cpu) :
    (intercept88 h c).eax = (e801Adjust h c).eax ∧ (intercept88 h c).cf = (e801Adjust h c).cf :=
  Cpu.setEbx_rest (e801Adjust h c) _

theorem exchange_ax (c : Cpu) : (exchange c).eax.toUInt16 = c.ecx.toUInt16 := by
  simp only [exchange, setLow_toUInt16]

theorem exchange_bx (c : Cpu) : (exchange c).ebx.toUInt16 = c.edx.toUInt16 := by
  simp only [exchange, setLow_toUInt16]

theorem exchange_cx (c : Cpu) : (exchange c).ecx.toUInt16 = c.eax.toUInt16 := by
  simp only [exchange, setLow_toUInt16]

theorem exchange_dx (c : Cpu) : (exchange c).edx.toUInt16 = c.ebx.toUInt16 := by
  simp only [exchange, setLow_toUInt16]

theorem exchange_cf (c : Cpu) : (exchange c).cf = c.cf := by
  obtain ⟨eax, ebx, ecx, edx, heq⟩ : ∃ eax ebx ecx edx, exchange c = ⟨eax, ebx, ecx, edx, c.cf⟩ :=
    ⟨_, _, _, _, rfl⟩
  rw [heq]

theorem interceptE801_ax (h : Hidden) (c : Cpu) :
    (interceptE801 h c).eax.toUInt16 = (e801Adjust h c).eax.toUInt16 ∧
      (interceptE801 h c).ebx.toUInt16 = (e801Adjust h c).ebx.toUInt16 := by
  obtain ⟨hcx, hdx, -⟩ := e801Adjust_rest h (exchange (e801Adjust h c))
  rw [interceptE801, exchange_ax, exchange_bx, hcx, hdx]
  exact ⟨exchange_cx _, exchange_dx _⟩

theorem interceptE801_cx (h : Hidden) (c : Cpu) :
    (interceptE801 h c).ecx.toUInt16 = (e801Adjust h (exchange (e801Adjust h c))).eax.toUInt16 ∧
      (interceptE801 h c).edx.toUInt16 = (e801Adjust h (exchange (e801Adjust h c))).ebx.toUInt16 :=
  ⟨exchange_cx _, exchange_dx _⟩

theorem interceptE801_cf (h : Hidden) (c : Cpu) : (interceptE801 h c).cf = c.cf := by
  rw [interceptE801, exchange_cf, (e801Adjust_rest h _).2.2, exchange_cf, (e801Adjust_rest h c).2.2]

theorem interceptE820_hides (hh : h.Below) {c : Cpu} {buf : Buffer} (hsmap : c.eax = smap)
    (hbelow : buf.baseLow.toNat + 2 ^ 32 * buf.baseHigh.toNat +
      (buf.lenLow.toNat + 2 ^ 32 * buf.lenHigh.toNat) < 2 ^ 32) :
    Hides h ⟨buf.baseLow.toNat + 2 ^ 32 * buf.baseHigh.toNat, buf.lenLow.toNat + 2 ^ 32 * buf.lenHigh.toNat⟩
      ⟨(interceptE820 h c buf).baseLow.toNat + 2 ^ 32 * (interceptE820 h c buf).baseHigh.toNat,
        (interceptE820 h c buf).lenLow.toNat + 2 ^ 32 * (interceptE820 h c buf).lenHigh.toNat⟩ := by
  have hhigh : buf.baseHigh.toNat = 0 ∧ buf.lenHigh.toNat = 0 := by omega
  have hzero : buf.baseHigh = 0 := UInt32.toNat_inj.mp hhigh.1
  simp only [interceptE820]
  rw [if_neg (fun hne => hne hsmap), if_neg (fun hne => hne hzero)]
  simp only [hhigh.1, hhigh.2, Nat.mul_zero, Nat.add_zero]
  exact @excludeHidden_hides h hh ⟨buf.baseLow, buf.lenLow⟩ 0 (by
    show buf.baseLow.toNat + buf.lenLow.toNat < 2 ^ 32
    omega)

/-- **Hidden memory.** If the hidden ranges and the memory that an answer describes end below 4GB, then each
    region of the answer that is passed on lies in the region the BIOS reported and has no byte of the hidden
    ranges; only an E820 answer may have another base. -/
theorem intercept_hides (h : Hidden) (ax : UInt16) (c : Cpu) (buf : Buffer) (hh : h.Below)
    (hbelow : ∀ r ∈ regions ax c buf, r.base + r.len < 2 ^ 32) :
    List.Forall₂ (fun before after => Hides h before after ∧ (ax ≠ 0xe820 → after.base = before.base))
      (regions ax c buf) (regions ax (interceptInt15 h ax c buf).1 (interceptInt15 h ax c buf).2) := by
  by_cases hcf : c.cf = true
  · rw [interceptInt15, if_pos hcf, regions, if_pos hcf]
    exact .nil
  by_cases h820 : ax = 0xe820
  · have hregions (c' : Cpu) (buf' : Buffer) (hcf' : c'.cf = c.cf) : regions ax c' buf' =
        if c'.eax = smap then [⟨buf'.baseLow.toNat + 2 ^ 32 * buf'.baseHigh.toNat,
          buf'.lenLow.toNat + 2 ^ 32 * buf'.lenHigh.toNat⟩] else [] := by
      rw [regions, hcf', if_neg hcf, if_pos h820]
    rw [interceptInt15, if_neg hcf, if_pos h820, hregions c buf rfl, hregions c _ rfl]
    rw [hregions c buf rfl] at hbelow
    split
    · next hsmap =>
      rw [if_pos hsmap] at hbelow
      refine .cons ⟨interceptE820_hides hh hsmap ?_, fun hne => absurd h820 hne⟩ .nil
      exact hbelow _ (List.mem_singleton.mpr rfl)
    · exact .nil
  by_cases h801 : ax = 0xe801
  · have hregions (c' : Cpu) (hcf' : c'.cf = c.cf) : regions ax c' buf =
        [⟨2 ^ 20, c'.eax.toUInt16.toNat * 1024⟩, ⟨2 ^ 24, c'.ebx.toUInt16.toNat * 65536⟩,
          ⟨2 ^ 20, c'.ecx.toUInt16.toNat * 1024⟩, ⟨2 ^ 24, c'.edx.toUInt16.toNat * 65536⟩] := by
      rw [regions, hcf', if_neg hcf, if_neg h820, if_pos h801]
    rw [interceptInt15, if_neg hcf, if_neg h820, if_pos h801, hregions c rfl,
      hregions _ (interceptE801_cf h c)]
    rw [hregions c rfl] at hbelow
    obtain ⟨hax, hbx⟩ := interceptE801_ax h c
    obtain ⟨hcx, hdx⟩ := interceptE801_cx h c
    rw [hax, hbx, hcx, hdx]
    have hbx := hbelow ⟨2 ^ 24, c.ebx.toUInt16.toNat * 65536⟩ (by simp)
    have hdx := hbelow ⟨2 ^ 24, c.edx.toUInt16.toNat * 65536⟩ (by simp)
    have hsecond := e801Adjust_ax hh (exchange (e801Adjust h c))
    obtain ⟨hecx, hedx, -⟩ := e801Adjust_rest h c
    have hthird := e801Adjust_bx hh (exchange (e801Adjust h c)) (by
      rw [exchange_bx, hedx]
      exact hdx)
    rw [exchange_ax, hecx] at hsecond
    rw [exchange_bx, hedx] at hthird
    exact .cons ⟨e801Adjust_ax hh c, fun _ => Region.base_eq ..⟩
      (.cons ⟨e801Adjust_bx hh c hbx, fun _ => Region.base_eq ..⟩
        (.cons ⟨hsecond, fun _ => Region.base_eq ..⟩ (.cons ⟨hthird, fun _ => Region.base_eq ..⟩ .nil)))
  by_cases h88 : ax >>> 8 = 0x88
  · have hregions (c' : Cpu) (hcf' : c'.cf = c.cf) :
        regions ax c' buf = [⟨2 ^ 20, c'.eax.toUInt16.toNat * 1024⟩] := by
      rw [regions, hcf', if_neg hcf, if_neg h820, if_neg h801, if_pos h88]
    obtain ⟨heax, hcf'⟩ := intercept88_rest h c
    rw [interceptInt15, if_neg hcf, if_neg h820, if_neg h801, if_pos h88, hregions c rfl,
      hregions _ (hcf'.trans (e801Adjust_rest h c).2.2), heax]
    exact .cons ⟨e801Adjust_ax hh c, fun _ => Region.base_eq ..⟩ .nil
  · have hregions : regions ax c buf = [] := by
      rw [regions, if_neg hcf, if_neg h820, if_neg h801, if_neg h88]
    rw [interceptInt15, if_neg hcf, if_neg h820, if_neg h801, if_neg h88, hregions]
    exact .nil

/-- Etherboot at the end of 32MB, the heap in front of it: 15MB of the upper 16MB are passed on. -/
theorem intercept_hides_e801 : List.Forall₂ (fun before after =>
      Hides ⟨⟨0x1f80000, 0x80000⟩, ⟨0x1f00000, 0x80000⟩⟩ before after ∧
        ((0xe801 : UInt16) ≠ 0xe820 → after.base = before.base))
    (regions 0xe801 ⟨0x3c00, 0x100, 0x3c00, 0x100, false⟩ ⟨0, 0, 0, 0⟩)
    [⟨2 ^ 20, 0xf00000⟩, ⟨2 ^ 24, 0xf00000⟩, ⟨2 ^ 20, 0xf00000⟩, ⟨2 ^ 24, 0xf00000⟩] := by
  have hafter := intercept_hides ⟨⟨0x1f80000, 0x80000⟩, ⟨0x1f00000, 0x80000⟩⟩ 0xe801
    ⟨0x3c00, 0x100, 0x3c00, 0x100, false⟩ ⟨0, 0, 0, 0⟩ ⟨by decide, by decide⟩ (by decide +kernel)
  have hregions : regions 0xe801 (interceptInt15 ⟨⟨0x1f80000, 0x80000⟩, ⟨0x1f00000, 0x80000⟩⟩ 0xe801
      ⟨0x3c00, 0x100, 0x3c00, 0x100, false⟩ ⟨0, 0, 0, 0⟩).1 (interceptInt15
      ⟨⟨0x1f80000, 0x80000⟩, ⟨0x1f00000, 0x80000⟩⟩ 0xe801 ⟨0x3c00, 0x100, 0x3c00, 0x100, false⟩
      ⟨0, 0, 0, 0⟩).2 = [⟨2 ^ 20, 0xf00000⟩, ⟨2 ^ 24, 0xf00000⟩, ⟨2 ^ 20, 0xf00000⟩, ⟨2 ^ 24, 0xf00000⟩] := by
    decide +kernel
  rw [hregions] at hafter
  exact hafter

end Answers

end E820Mangler
