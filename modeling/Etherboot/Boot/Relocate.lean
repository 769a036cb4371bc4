import Etherboot.Alloc.Heap
import Etherboot.Osloader.Segment
import Mathlib.Data.Nat.Bitwise
import Mathlib.Data.Set.Defs

set_option autoImplicit false

/-! # Moving Etherboot to the top of memory (`core/relocate.c`)

Each entry of the memory map offers the highest place in it for Etherboot, and one that lies above the place
chosen so far replaces it. The end of an entry is first rounded down so that Etherboot lies in an even
megabyte, where it can be seen whatever the A20 line does.

Only the end of a place is compared with the start of the entry. `relocate_target_iff` says which entries may
stand in a map so that Etherboot is always moved into RAM. -/

namespace Relocate

open Memory Alloc Osloader

/-- `MAX_ADDR` -/
def maxAddr : Nat := 0xfff00000

/-- Where Etherboot is: `virt_to_phys(_text)` and `virt_to_phys(_end)`. -/
structure Position where
  text : Nat
  end_ : Nat
  nonempty : text < end_
  below : end_ ≤ ulongMax

variable (p : Position)

/-- `size` -/
def Position.size : Nat := andNot ((wsub p.end_ p.text + 15) % 2 ^ 32) 15

/-- `eaddr` before the loop: an Etherboot beyond `MAX_ADDR` counts as the lowest one. -/
def Position.eaddr : Nat := if p.end_ > maxAddr then 0 else p.end_

/-- The end of a range, shrunk to use only even megabytes. -/
def evenEnd (size rEnd : Nat) : Nat :=
  if rEnd &&& 0x100000 ≠ 0 then andNot rEnd 0xfffff
  else if wsub rEnd size &&& 0x100000 ≠ 0 then andNot (wsub rEnd 0x100000) 0xfffff
  else rEnd

/-- The place that an entry offers: `r_end - size` and `r_end` as they are compared at the end of a round. -/
def place (size : Nat) (r : E820Entry) : Option (Nat × Nat) :=
  if r.type ≠ e820Ram then none
  else if r.addr.toNat > maxAddr then none
  else if r.size.toNat > maxAddr then none
  else
    let rEnd := (r.addr.toNat + r.size.toNat) % 2 ^ 32
    let rStart := andNot ((r.addr.toNat + 15) % 2 ^ 32) 15
    let rEnd := andNot rEnd 15
    let rEnd := if rEnd < rStart then maxAddr else rEnd
    if rEnd < size then none
    else
      let rEnd := evenEnd size rEnd
      if rEnd < rStart then none else some (wsub rEnd size, rEnd)

/-- `addr` and `eaddr`. -/
structure Target where
  addr : Nat
  eaddr : Nat
  deriving DecidableEq, Repr

def Target.step (size : Nat) (t : Target) (r : E820Entry) : Target :=
  match place size r with
  | none => t
  | some (addr, eaddr) => if t.eaddr < addr then ⟨addr, eaddr⟩ else t

/-- The loop of `relocate`. Etherboot is moved if `addr` is not `virt_to_phys(_text)` at its end. -/
def relocate (map : List E820Entry) : Target :=
  map.foldl (Target.step p.size) ⟨p.text, p.eaddr⟩

/-! ## Where Etherboot may be moved -/

/-- The number of bytes of Etherboot, rounded up to 16. -/
def Position.rounded : Nat := (p.end_ - p.text + 15) / 16 * 16

def EvenMegabyte (a : Nat) : Prop := a / 2 ^ 20 % 2 = 0

/-- A place in RAM of one entry below `MAX_ADDR`, with its first and its last byte in an even megabyte. -/
structure Suitable (map : List E820Entry) (addr : Nat) : Prop where
  aligned : addr % 16 = 0
  ram : ∃ r ∈ map, r.Holds addr (addr + p.rounded)
  below : addr + p.rounded ≤ maxAddr
  first : EvenMegabyte addr
  last : EvenMegabyte (addr + p.rounded - 1)

/-- If Etherboot is moved, it is moved to a suitable place. -/
def MovesWell (map : List E820Entry) : Prop :=
  (relocate p map).addr ≠ p.text → Suitable p map (relocate p map).addr

/-- An entry whose place ends at `eaddr` has room for Etherboot: there is a multiple of 16 in it or at its end,
    and Etherboot fits between its start and `eaddr`. And the ends of Etherboot are an even number of megabytes
    apart, which one megabyte or less always is, or `eaddr` lies inside of an even megabyte. -/
structure HasRoom (r : E820Entry) (eaddr : Nat) : Prop where
  size : p.rounded < 2 ^ 32
  multiple : (r.addr.toNat + 15) / 16 * 16 ≤ r.addr.toNat + r.size.toNat
  fits : (r.addr.toNat + 15) / 16 * 16 + p.rounded ≤ eaddr
  even : (p.rounded - 1) / 2 ^ 20 % 2 = 0 ∨ EvenMegabyte eaddr ∧ eaddr % 2 ^ 20 ≠ 0

/-- A place of the entry that is above Etherboot, so that Etherboot would be moved there. -/
def Above (addr : Nat) : Prop := p.eaddr < addr ∧ addr ≠ p.text

/-! ## Rounding -/

theorem andNot_megabyte (x : Nat) : andNot x 0xfffff = x / 2 ^ 20 * 2 ^ 20 := by
  have h : x &&& 0xfffff = x % 2 ^ 20 := Nat.and_two_pow_sub_one_eq_mod x 20
  rw [andNot, h]
  omega

theorem odd_megabyte {x : Nat} : x &&& 0x100000 ≠ 0 ↔ x / 2 ^ 20 % 2 = 1 := by
  have h : x &&& 0x100000 = (x.testBit 20).toNat * 2 ^ 20 := Nat.and_two_pow x 20
  rw [h, Nat.testBit_eq_decide_div_mod_eq]
  by_cases hodd : x / 2 ^ 20 % 2 = 1 <;> simp

/-- The end is rounded down to an odd megabyte, or it lies in an even one as does the start that goes
    with it. -/
theorem evenEnd_cases {size rEnd : Nat} (hle : size ≤ rEnd) (hlt : rEnd < 2 ^ 32) :
    (rEnd / 2 ^ 20 % 2 = 1 ∧ evenEnd size rEnd = rEnd / 2 ^ 20 * 2 ^ 20) ∨
      (rEnd / 2 ^ 20 % 2 = 0 ∧ (rEnd - size) / 2 ^ 20 % 2 = 1 ∧
        evenEnd size rEnd = (rEnd - 2 ^ 20) / 2 ^ 20 * 2 ^ 20) ∨
      (rEnd / 2 ^ 20 % 2 = 0 ∧ (rEnd - size) / 2 ^ 20 % 2 = 0 ∧ evenEnd size rEnd = rEnd) := by
  unfold evenEnd
  rw [wsub_of_le hle hlt]
  by_cases hodd : rEnd &&& 0x100000 ≠ 0
  · rw [if_pos hodd, andNot_megabyte]
    exact Or.inl ⟨odd_megabyte.mp hodd, rfl⟩
  · rw [if_neg hodd]
    rw [odd_megabyte] at hodd
    by_cases hstart : (rEnd - size) &&& 0x100000 ≠ 0
    · rw [if_pos hstart, andNot_megabyte]
      rw [odd_megabyte] at hstart
      rw [wsub_of_le (by omega) hlt]
      exact Or.inr (Or.inl ⟨by omega, hstart, rfl⟩)
    · rw [if_neg hstart]
      rw [odd_megabyte] at hstart
      exact Or.inr (Or.inr ⟨by omega, by omega, rfl⟩)

theorem Position.rounded_le : 16 ≤ p.rounded ∧ p.rounded ≤ 2 ^ 32 ∧ p.rounded % 16 = 0 := by
  have := p.nonempty
  have := p.below
  unfold Position.rounded
  unfold ulongMax at *
  omega

theorem Position.size_eq : p.size = p.rounded % 2 ^ 32 := by
  have := p.nonempty
  have := p.below
  unfold Position.size Position.rounded
  unfold ulongMax at *
  rw [wsub_of_le (by omega) (by omega), andNot_fifteen]
  omega

/-! ## The place of an entry -/

section Place

variable {p : Position} {r : E820Entry} {addr eaddr : Nat}

section

variable {size : Nat} (h : place size r = some (addr, eaddr))

include h

/-- What is known of a place. The end of the entry is the one rounded down to 16, or `MAX_ADDR` if it overflows
    or if there is no multiple of 16 in the entry. -/
theorem place_cases :
    r.type = e820Ram ∧ r.addr.toNat ≤ maxAddr ∧ r.size.toNat ≤ maxAddr ∧
      (r.addr.toNat + 15) / 16 * 16 ≤ eaddr ∧ addr = wsub eaddr size ∧
      ∃ rEnd, size ≤ rEnd ∧ eaddr = evenEnd size rEnd ∧
        ((rEnd = (r.addr.toNat + r.size.toNat) / 16 * 16 ∧ (r.addr.toNat + 15) / 16 * 16 ≤ rEnd ∧
            r.addr.toNat + r.size.toNat < 2 ^ 32) ∨
          (rEnd = maxAddr ∧ (2 ^ 32 ≤ r.addr.toNat + r.size.toNat ∨
            r.addr.toNat + r.size.toNat < (r.addr.toNat + 15) / 16 * 16))) := by
  unfold place at h
  split_ifs at h with htype haddr hsize
  have hstart : andNot ((r.addr.toNat + 15) % 2 ^ 32) 15 = (r.addr.toNat + 15) / 16 * 16 := by
    rw [andNot_fifteen]
    unfold maxAddr at *
    omega
  simp only [hstart, andNot_fifteen] at h
  generalize hend : (if (r.addr.toNat + r.size.toNat) % 2 ^ 32 / 16 * 16 < (r.addr.toNat + 15) / 16 * 16 then
    maxAddr else (r.addr.toNat + r.size.toNat) % 2 ^ 32 / 16 * 16) = rEnd at h
  split_ifs at h with hroom hle
  obtain ⟨rfl, rfl⟩ := h
  refine ⟨not_not.mp htype, by omega, by omega, by omega, rfl, rEnd, by omega, rfl, ?_⟩
  split_ifs at hend <;> unfold maxAddr at * <;> omega

/-- A place ends at a multiple of 16 below `MAX_ADDR`, either where an odd megabyte begins or in an even
    megabyte, and then it begins in one too. -/
theorem place_end :
    eaddr ≤ maxAddr ∧ eaddr % 16 = 0 ∧
      ((eaddr / 2 ^ 20 % 2 = 1 ∧ eaddr % 2 ^ 20 = 0) ∨
        (eaddr / 2 ^ 20 % 2 = 0 ∧ size ≤ eaddr ∧ (eaddr - size) / 2 ^ 20 % 2 = 0)) := by
  obtain ⟨-, -, -, -, -, rEnd, hsize, rfl, hend⟩ := place_cases h
  have hlt : rEnd < 2 ^ 32 ∧ rEnd % 16 = 0 := by
    unfold maxAddr at hend
    omega
  unfold maxAddr
  rcases evenEnd_cases hsize hlt.1 with ⟨hodd, heq⟩ | ⟨heven, hstart, heq⟩ | ⟨heven, hstart, heq⟩ <;>
    rw [heq] <;> omega

/-- It ends inside of the entry, unless there is no multiple of 16 in it. -/
theorem place_inside (hmul : (r.addr.toNat + 15) / 16 * 16 ≤ r.addr.toNat + r.size.toNat) :
    eaddr ≤ r.addr.toNat + r.size.toNat := by
  obtain ⟨-, -, -, -, -, rEnd, hsize, rfl, hend⟩ := place_cases h
  have hlt : rEnd < 2 ^ 32 ∧ rEnd ≤ r.addr.toNat + r.size.toNat := by
    unfold maxAddr at hend
    omega
  rcases evenEnd_cases hsize hlt.1 with ⟨-, heq⟩ | ⟨-, -, heq⟩ | ⟨-, -, heq⟩ <;> rw [heq] <;> omega

end

theorem place_of_room (h : place p.size r = some (addr, eaddr)) (hsize : p.rounded < 2 ^ 32)
    (hle : p.rounded ≤ eaddr) : addr + p.rounded = eaddr := by
  obtain ⟨-, -, -, -, heq, -⟩ := place_cases h
  have hmax := (place_end h).1
  rw [heq, p.size_eq, Nat.mod_eq_of_lt hsize, wsub_of_le hle (Nat.lt_of_le_of_lt hmax (by decide))]
  omega

theorem suitable_of_room {map : List E820Entry} (hr : r ∈ map) (h : place p.size r = some (addr, eaddr))
    (hroom : HasRoom p r eaddr) : Suitable p map addr := by
  obtain ⟨hsize, hmul, hfits, heven⟩ := hroom
  have hadd := place_of_room h hsize (by omega)
  obtain ⟨hmax, halign, hmega⟩ := place_end h
  have hinside := place_inside h hmul
  obtain ⟨hlarge, -, hround⟩ := p.rounded_le
  rw [p.size_eq, Nat.mod_eq_of_lt hsize] at hmega
  exact {
    aligned := by omega
    ram := ⟨r, hr, (place_cases h).1, by omega, by omega⟩
    below := by omega
    first := by
      unfold EvenMegabyte
      omega
    last := by
      unfold EvenMegabyte
      omega }

/-- If the place is suitable because of the entry itself, the entry has room. -/
theorem room_of_suitable (h : place p.size r = some (addr, eaddr)) (hs : Suitable p [r] addr) :
    HasRoom p r eaddr := by
  obtain ⟨halign, ⟨r', hr', -, hlo, hhi⟩, hbelow, hfirst, hlast⟩ := hs
  obtain rfl := List.mem_singleton.mp hr'
  obtain ⟨hmax, halign', hmega⟩ := place_end h
  obtain ⟨-, -, -, -, heq, -⟩ := place_cases h
  have hsize : p.rounded < 2 ^ 32 := Nat.lt_of_le_of_lt (Nat.le_trans (Nat.le_add_left ..) hbelow) (by decide)
  rw [p.size_eq, Nat.mod_eq_of_lt hsize] at heq hmega
  have hadd : addr + p.rounded = eaddr := by
    unfold wsub at heq
    unfold maxAddr at *
    omega
  unfold EvenMegabyte at hfirst hlast
  refine ⟨hsize, by omega, by omega, ?_⟩
  unfold EvenMegabyte
  omega

end Place

/-! ## The loop -/

section Loop

variable {p : Position}

/-- The place chosen so far is where Etherboot is, or suitable; it does not end below Etherboot. -/
structure Chosen (p : Position) (map : List E820Entry) (t : Target) : Prop where
  suitable : t.addr ≠ p.text → Suitable p map t.addr
  above : p.eaddr ≤ t.eaddr

theorem Chosen.step {map : List E820Entry} {t : Target} (h : Chosen p map t) {r : E820Entry} (hr : r ∈ map)
    (hroomy : ∀ addr eaddr, place p.size r = some (addr, eaddr) → Above p addr → HasRoom p r eaddr) :
    Chosen p map (t.step p.size r) := by
  unfold Target.step
  cases hplace : place p.size r with
  | none => exact h
  | some c =>
    obtain ⟨addr, eaddr⟩ := c
    simp only
    split
    · next hlt =>
      have habove : p.eaddr < addr := Nat.lt_of_le_of_lt h.above hlt
      by_cases htext : addr = p.text
      · -- Etherboot ends beyond `MAX_ADDR`, and every end is above
        have hnonempty := p.nonempty
        have hbeyond : p.end_ > maxAddr := by
          by_contra hle
          rw [Position.eaddr, if_neg hle] at habove
          omega
        refine ⟨fun hne => absurd htext hne, ?_⟩
        rw [Position.eaddr, if_pos hbeyond]
        exact Nat.zero_le _
      · have hroom := hroomy addr eaddr hplace ⟨habove, htext⟩
        refine ⟨fun _ => suitable_of_room hr hplace hroom, ?_⟩
        have := place_of_room hplace hroom.size (Nat.le_trans (Nat.le_add_left ..) hroom.fits)
        show p.eaddr ≤ eaddr
        omega
    · exact h

theorem Chosen.run {map rest : List E820Entry} {t : Target} (h : Chosen p map t)
    (hsub : ∀ r ∈ rest, r ∈ map)
    (hroomy : ∀ r ∈ rest, ∀ addr eaddr, place p.size r = some (addr, eaddr) → Above p addr →
      HasRoom p r eaddr) :
    Chosen p map (rest.foldl (Target.step p.size) t) := by
  induction rest generalizing t with
  | nil => exact h
  | cons r rs ih =>
    have hstep := h.step (hsub r (List.mem_cons_self ..)) (hroomy r (List.mem_cons_self ..))
    exact ih hstep (fun x hx => hsub x (List.mem_cons_of_mem _ hx))
      (fun x hx => hroomy x (List.mem_cons_of_mem _ hx))

/-- With one entry, Etherboot is moved to its place if that is above. -/
theorem relocate_singleton {r : E820Entry} {addr eaddr : Nat} (h : place p.size r = some (addr, eaddr))
    (habove : p.eaddr < addr) : (relocate p [r]).addr = addr := by
  show (Target.step p.size ⟨p.text, p.eaddr⟩ r).addr = addr
  unfold Target.step
  rw [h]
  exact congrArg Target.addr (if_pos habove)

end Loop

/-- **Where Etherboot is moved.** Whatever map is made of some entries, Etherboot is only ever moved to a
    suitable place, if and only if each entry whose place is above Etherboot has room. -/
theorem relocate_target_iff (p : Position) (S : Set E820Entry) :
    (∀ map : List E820Entry, (∀ r ∈ map, r ∈ S) → MovesWell p map) ↔
      ∀ r ∈ S, ∀ addr eaddr, place p.size r = some (addr, eaddr) → Above p addr → HasRoom p r eaddr := by
  constructor
  · intro h r hr addr eaddr hplace habove
    have hmoved := relocate_singleton hplace habove.1
    have hwell := h [r] (fun x hx => (List.mem_singleton.mp hx) ▸ hr)
    unfold MovesWell at hwell
    rw [hmoved] at hwell
    exact room_of_suitable hplace (hwell habove.2)
  · intro hroomy map hmap
    have hstart : Chosen p map ⟨p.text, p.eaddr⟩ := ⟨fun hne => absurd rfl hne, Nat.le_refl _⟩
    exact (hstart.run (fun _ hr => hr) (fun r hr => hroomy r (hmap r hr))).suitable

/-- Base memory and one megabyte above the first one: Etherboot is moved to the end of the first megabyte,
    where there is no RAM. -/
theorem relocate_to_rom :
    ¬ MovesWell ⟨0x20000, 0x30000, by decide, by decide⟩
      [⟨0, 0xa0000, e820Ram⟩, ⟨0x100000, 0x100000, e820Ram⟩] := by
  intro h
  obtain ⟨r, hr, -, hlo, hhi⟩ := (h (by decide)).ram
  simp only [List.mem_cons, List.not_mem_nil, or_false] at hr
  rcases hr with rfl | rfl
  · exact absurd hhi (by decide)
  · exact absurd hlo (by decide)

end Relocate
