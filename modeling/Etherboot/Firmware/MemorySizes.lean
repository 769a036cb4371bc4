import Mathlib.Data.List.Forall2
import Etherboot.Osloader.Segment

set_option autoImplicit false

/-! # The memory map (`get_memsizes` in `arch/i386/firmware/pcbios/memsizes.c`)

The map of the BIOS is scrubbed: RAM below 0x600 and RAM from the end of the free base memory to 0xa0000 is
taken away from each entry. An entry that begins below 0xa0000 is cut at the end of the free base memory even
if all base memory is free, so that what it has above 0xa0000 is lost: `getMemsizes_scrubbed_iff`. -/

namespace Memsizes

open Osloader

/-! ## The map of the BIOS -/

/-- What the BIOS returns for a call with `0xe820`. -/
structure E820Reply where
  eax : UInt32
  ebx : UInt32
  carry : Bool
  entry : E820Entry

def smap : UInt32 := 0x534d4150

def e820max : Nat := 32

/-- The loop of `meme820` with `room` entries left; an error makes the count 0. -/
def meme820 (bios : Nat → E820Reply) : (room index : Nat) → (buf : List E820Entry) → List E820Entry
  | 0, _, buf => buf
  | room + 1, index, buf =>
    if index = 0 ∨ (bios (index - 1)).ebx ≠ 0 then
      let stack := bios index
      if stack.eax ≠ smap then []
      else if stack.carry then []
      else meme820 bios room (index + 1) (buf ++ [stack.entry])
    else buf

/-- What the BIOS says: the map, and the sizes of base and extended memory in KB. -/
structure Bios where
  e820 : Nat → E820Reply
  basememsize : UInt16
  memsize : UInt32

/-- The map before it is scrubbed. It is made up from the sizes if there is none. -/
def bareMap (ignoreE820Map : Bool) (bios : Bios) : List E820Entry :=
  let map := if ignoreE820Map then [] else meme820 bios.e820 e820max 0 []
  if map.length = 0 then
    [⟨0, bios.basememsize.toUInt64 <<< 10, e820Ram⟩, ⟨1024 * 1024, (bios.memsize <<< 10).toUInt64, e820Ram⟩]
  else map

/-! ## Scrubbing -/

variable (basemem : UInt32) (e : E820Entry)

/-- Reserve the BIOS data structures; `delta` is an `unsigned long`. -/
def reserve : E820Entry :=
  if e.addr < 0x600 then
    let delta := (0x600 - e.addr).toUInt32
    let delta := if delta.toUInt64 > e.size then e.size.toUInt32 else delta
    { e with addr := 0x600, size := e.size - delta.toUInt64 }
  else e

/-- Bring the entry in line with the free base memory. -/
def sync : E820Entry :=
  if e.addr < 0xa0000 ∧ e.addr + e.size > basemem.toUInt64 then
    if e.addr ≤ basemem.toUInt64 then { e with size := basemem.toUInt64 - e.addr }
    else { e with addr := basemem.toUInt64, size := 0 }
  else e

def scrub : E820Entry :=
  if e.type ≠ e820Ram then e else sync basemem (reserve e)

/-- `get_memsizes`: the map that it leaves. -/
def getMemsizes (ignoreE820Map : Bool) (bios : Bios) (basemem : UInt32) : List E820Entry :=
  (bareMap ignoreE820Map bios).map (scrub basemem)

/-! ## What should be left -/

def Has (a : Nat) : Prop := e.addr.toNat ≤ a ∧ a < e.addr.toNat + e.size.toNat

/-- The address is in one of the two ranges that are taken away. -/
def Taken (a : Nat) : Prop := a < 0x600 ∨ basemem.toNat ≤ a ∧ a < 0xa0000

structure Scrubbed (before after : E820Entry) : Prop where
  subset : ∀ a, Has after a → Has before a
  free : ∀ a, Has after a → ¬ Taken basemem a
  unchanged : (∃ a, Has before a) → (∀ a, Has before a → ¬ Taken basemem a) → after = before

/-- All base memory is free, and the entry goes on behind it from above the BIOS data. -/
def Crosses : Prop :=
  basemem.toNat = 0xa0000 ∧ 0x600 ≤ e.addr.toNat ∧ e.addr.toNat < 0xa0000 ∧
    0xa0000 < e.addr.toNat + e.size.toNat

section Scrub

variable {basemem : UInt32} {e : E820Entry}

theorem reserve_spec (e : E820Entry) :
    (reserve e).addr.toNat = max e.addr.toNat 0x600 ∧
      (reserve e).addr.toNat + (reserve e).size.toNat = max (e.addr.toNat + e.size.toNat) 0x600 := by
  have h600 : (0x600 : UInt64).toNat = 0x600 := rfl
  rw [reserve]
  split
  · next hlow =>
    rw [UInt64.lt_iff_toNat_lt, h600] at hlow
    have hgap : (0x600 - e.addr).toUInt32.toNat = 0x600 - e.addr.toNat := by
      rw [UInt64.toNat_toUInt32, UInt64.toNat_sub_of_le _ _ (UInt64.le_iff_toNat_le.mpr hlow.le), h600]
      omega
    dsimp only
    split
    · next hshort =>
      rw [gt_iff_lt, UInt64.lt_iff_toNat_lt, UInt32.toNat_toUInt64, hgap] at hshort
      have hsize : e.size.toUInt32.toUInt64 = e.size := by
        rw [← UInt64.toNat_inj, UInt32.toNat_toUInt64, UInt64.toNat_toUInt32]
        omega
      rw [hsize, UInt64.sub_self, h600, UInt64.toNat_zero]
      omega
    · next hlong =>
      rw [gt_iff_lt, UInt64.not_lt, UInt64.le_iff_toNat_le, UInt32.toNat_toUInt64, hgap] at hlong
      rw [UInt64.toNat_sub_of_le _ _ (by rwa [UInt64.le_iff_toNat_le, UInt32.toNat_toUInt64, hgap]),
        UInt32.toNat_toUInt64, hgap, h600]
      omega
  · next hhigh =>
    rw [UInt64.not_lt, UInt64.le_iff_toNat_le, h600] at hhigh
    omega

theorem sync_iff (h : e.addr.toNat + e.size.toNat < 2 ^ 64) :
    (e.addr < 0xa0000 ∧ e.addr + e.size > basemem.toUInt64) ↔
      e.addr.toNat < 0xa0000 ∧ basemem.toNat < e.addr.toNat + e.size.toNat := by
  rw [gt_iff_lt, UInt64.lt_iff_toNat_lt, UInt64.lt_iff_toNat_lt, UInt64.toNat_add, Nat.mod_eq_of_lt h,
    UInt32.toNat_toUInt64]
  rfl

theorem sync_spec (h : e.addr.toNat + e.size.toNat < 2 ^ 64) (hlow : e.addr.toNat < 0xa0000)
    (hend : basemem.toNat < e.addr.toNat + e.size.toNat) :
    (sync basemem e).addr.toNat = min e.addr.toNat basemem.toNat ∧
      (sync basemem e).addr.toNat + (sync basemem e).size.toNat = basemem.toNat := by
  rw [sync, if_pos ((sync_iff h).mpr ⟨hlow, hend⟩)]
  have hle : e.addr ≤ basemem.toUInt64 ↔ e.addr.toNat ≤ basemem.toNat := by
    rw [UInt64.le_iff_toNat_le, UInt32.toNat_toUInt64]
  split
  · next hbelow =>
    dsimp only
    rw [UInt64.toNat_sub_of_le _ _ hbelow, UInt32.toNat_toUInt64]
    have := hle.mp hbelow
    omega
  · next habove =>
    have := mt hle.mpr habove
    dsimp only
    rw [UInt32.toNat_toUInt64, UInt64.toNat_zero]
    omega

/-- An entry is scrubbed as it should be, unless it goes on behind the base memory and all of this is free. -/
theorem scrubbed_scrub_iff (hram : e.type = e820Ram) (h : e.addr.toNat + e.size.toNat < 2 ^ 64)
    (hmin : 0x600 ≤ basemem.toNat) (hmax : basemem.toNat ≤ 0xa0000) :
    Scrubbed basemem e (scrub basemem e) ↔ ¬ Crosses basemem e := by
  obtain ⟨haddr, hend⟩ := reserve_spec e
  have hfit : (reserve e).addr.toNat + (reserve e).size.toNat < 2 ^ 64 := by omega
  rw [scrub, if_neg (not_not.mpr hram)]
  by_cases hcut : (reserve e).addr.toNat < 0xa0000 ∧
      basemem.toNat < (reserve e).addr.toNat + (reserve e).size.toNat
  · obtain ⟨haddr', hend'⟩ := @sync_spec basemem _ hfit hcut.1 hcut.2
    constructor
    · rintro hscrubbed ⟨hbase, hfrom, hlow, hhigh⟩
      have heq := hscrubbed.unchanged ⟨e.addr.toNat, by simp only [Has]; omega⟩ (fun a ha => by
        simp only [Has, Taken] at ha ⊢
        omega)
      rw [heq] at hend'
      omega
    · intro hcross
      refine ⟨fun a ha => ?_, fun a ha => ?_, fun ⟨a, ha⟩ hfree => absurd hcross (not_not.mpr ?_)⟩
      · simp only [Has] at ha ⊢
        omega
      · simp only [Has, Taken] at ha ⊢
        omega
      · -- the first byte and the one behind the free base memory are not taken away
        have hfirst := hfree e.addr.toNat
        have hbehind := hfree basemem.toNat
        simp only [Has, Taken, Crosses] at ha hfirst hbehind ⊢
        omega
  · have hkept : sync basemem (reserve e) = reserve e := if_neg (mt (sync_iff hfit).mp hcut)
    rw [hkept]
    refine iff_of_true ⟨fun a ha => ?_, fun a ha => ?_, fun ⟨a, ha⟩ hfree => if_neg ?_⟩ ?_
    · simp only [Has] at ha ⊢
      omega
    · simp only [Has, Taken] at ha ⊢
      omega
    · have hfirst := hfree e.addr.toNat
      simp only [Has, Taken] at ha hfirst
      rw [UInt64.not_lt, UInt64.le_iff_toNat_le]
      show 0x600 ≤ e.addr.toNat
      omega
    · simp only [Crosses]
      omega

end Scrub

/-- What should be left of each entry: RAM is scrubbed, the others stay as they are. -/
def Entry (before after : E820Entry) : Prop :=
  after.type = before.type ∧ (before.type = e820Ram → Scrubbed basemem before after)

theorem scrub_type : (scrub basemem e).type = e.type := by
  rw [scrub, sync, reserve]
  split_ifs <;> rfl

/-- **The map that `get_memsizes` leaves** is the one of the BIOS without the two ranges, exactly if not all base
    memory is free or no RAM entry goes on behind it. -/
theorem getMemsizes_scrubbed_iff (ignoreE820Map : Bool) (bios : Bios) (basemem : UInt32)
    (h : ∀ e ∈ bareMap ignoreE820Map bios, e.type = e820Ram → e.addr.toNat + e.size.toNat < 2 ^ 64)
    (hmin : 0x600 ≤ basemem.toNat) (hmax : basemem.toNat ≤ 0xa0000) :
    List.Forall₂ (Entry basemem) (bareMap ignoreE820Map bios) (getMemsizes ignoreE820Map bios basemem) ↔
      ∀ e ∈ bareMap ignoreE820Map bios, e.type = e820Ram → ¬ Crosses basemem e := by
  rw [getMemsizes, List.forall₂_map_right_iff, List.forall₂_same]
  refine forall₂_congr fun e he => ?_
  rw [Entry, scrub_type, eq_self, true_and]
  exact forall_congr' fun hram => scrubbed_scrub_iff hram (h e he hram) hmin hmax

/-! ## All base memory is free -/

/-- A BIOS that reports one entry. -/
def oneEntry (addr size : UInt64) : Bios := ⟨fun _ => ⟨smap, 0, false, ⟨addr, size, e820Ram⟩⟩, 640, 0x3c00⟩

theorem memory_below_639K : List.Forall₂ (Entry 0x9fc00) (bareMap false (oneEntry 0 0x1000000))
    (getMemsizes false (oneEntry 0 0x1000000) 0x9fc00) := by
  have hmap : bareMap false (oneEntry 0 0x1000000) = [⟨0, 0x1000000, e820Ram⟩] := by decide
  refine (getMemsizes_scrubbed_iff false _ 0x9fc00 ?_ (by decide) (by decide)).mpr
    fun e _ _ hcross => by cases hcross.1
  rw [hmap]
  simp

/-- With 640 KB free, memory from 4 KB to 16 MB ends at 640 KB in the map. -/
theorem memory_above_640K_lost :
    getMemsizes false (oneEntry 0x1000 0xfff000) 0xa0000 = [⟨0x1000, 0x9f000, e820Ram⟩] ∧
      ¬ List.Forall₂ (Entry 0xa0000) (bareMap false (oneEntry 0x1000 0xfff000))
        (getMemsizes false (oneEntry 0x1000 0xfff000) 0xa0000) := by
  have hmap : bareMap false (oneEntry 0x1000 0xfff000) = [⟨0x1000, 0xfff000, e820Ram⟩] := by decide
  have hleft : getMemsizes false (oneEntry 0x1000 0xfff000) 0xa0000 = [⟨0x1000, 0x9f000, e820Ram⟩] := by decide
  refine ⟨hleft, fun hall => ?_⟩
  rw [hleft, hmap] at hall
  cases hall with
  | cons hentry _ =>
    have heq := (hentry.2 rfl).unchanged ⟨0x1000, by simp [Has]⟩ (fun a ha => by
      simp [Has, Taken] at ha ⊢
      omega)
    cases heq

end Memsizes
