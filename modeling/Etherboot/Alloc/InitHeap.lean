import Etherboot.Alloc.Heap
import Etherboot.Osloader.Segment

set_option autoImplicit false

/-! # Finding memory for the heap (`init_heap` in `core/heap.c`)

The heap is to be the largest range of RAM beside Etherboot. Each entry of the memory map offers one range: all
of it, or what is left of it on one side of Etherboot. The largest range offered is taken.

If Etherboot lies inside of an entry, the larger side should be offered. But the two lengths are computed
with different signs, so that the lower side always is. `initHeap_largest_iff` says when this does no harm. -/

namespace Alloc

open Memory Osloader

/-- Where Etherboot is: `virt_to_phys(_virt_start)` and `virt_to_phys(_end)`. -/
structure Placement where
  start : Nat
  end_ : Nat
  nonempty : start < end_
  below : end_ ≤ ulongMax

variable (p : Placement) (r : E820Entry)

/-- `r_start` and `r_end` of an entry. An end that overflows is replaced by the largest one. -/
def ramRange : Option (Nat × Nat) :=
  if r.type ≠ e820Ram then none
  else if r.addr.toNat > ulongMax then none
  else if r.size.toNat > ulongMax then none
  else
    let rStart := r.addr.toNat
    let rEnd := (rStart + r.size.toNat) % 2 ^ 32
    some (rStart, if rEnd < rStart then ulongMax else rEnd)

/-- What is left of a range beside Etherboot. The comparison is meant to keep the larger piece. -/
def besideEtherboot (rStart rEnd : Nat) : Option (Nat × Nat) :=
  if p.end_ > rStart ∧ p.start < rEnd then
    if p.start ≤ rStart ∧ p.end_ ≥ rEnd then none
    else if p.start > rStart ∧ p.end_ < rEnd then
      if wsub rEnd p.end_ ≥ wsub rStart p.start then some (p.end_, rEnd) else some (rStart, p.start)
    else if p.end_ ≥ rEnd then some (rStart, p.start)
    else if p.start ≤ rStart then some (p.end_, rEnd)
    else some (rStart, rEnd)
  else some (rStart, rEnd)

/-- The range that an entry offers. -/
def offer : Option (Nat × Nat) :=
  (ramRange r).bind fun c => besideEtherboot p c.1 c.2

/-- The variables of the search: `size` and the heap found so far. -/
structure Search where
  size : Nat
  heapTop : Nat
  heapBot : Nat

/-- One round. Of two ranges of the same size the higher one is preferred. -/
def Search.step (s : Search) (r : E820Entry) : Search :=
  match offer p r with
  | none => s
  | some (rStart, rEnd) =>
    if wsub rEnd rStart > s.size ∨ (wsub rEnd rStart = s.size ∧ rStart > s.heapTop) then
      ⟨wsub rEnd rStart, rStart, rEnd⟩
    else s

/-- `init_heap`, or `none` if it gives up. -/
def initHeap (map : List E820Entry) (h : Heap) : Option Heap :=
  let s := map.foldl (Search.step p) ⟨0, h.heapTop, h.heapBot⟩
  if s.size = 0 then none
  else some { h with heapPtr := s.heapBot, heapTop := s.heapTop, heapBot := s.heapBot }

/-! ## Free ranges -/

/-- `[lo, hi)` is RAM of one entry that an `unsigned long` reaches, without a byte of Etherboot. -/
structure Free (lo hi : Nat) : Prop where
  le : lo ≤ hi
  ram : r.Holds lo hi
  reached : hi ≤ ulongMax
  beside : hi ≤ p.start ∨ p.end_ ≤ lo

/-- A free range that is looked at: the entry is smaller than 4GB, and if Etherboot begins inside of it then
    the range lies below Etherboot. -/
structure Offered (lo hi : Nat) : Prop extends Free p r lo hi where
  size : r.size.toNat ≤ ulongMax
  lower : hi ≤ p.start ∨ p.start ≤ r.addr.toNat

/-- The heap is a free range, and no free range is larger. -/
structure Largest (map : List E820Entry) (h : Heap) : Prop where
  free : ∃ r ∈ map, Free p r h.heapTop h.heapBot
  largest : ∀ r ∈ map, ∀ lo hi, Free p r lo hi → hi - lo ≤ h.heapBot - h.heapTop

section Offers

variable {p : Placement} {r : E820Entry} {a b : Nat}

theorem ramRange_spec (h : ramRange r = some (a, b)) :
    r.type = e820Ram ∧ r.size.toNat ≤ ulongMax ∧ a = r.addr.toNat ∧ a ≤ b ∧
      b = min (r.addr.toNat + r.size.toNat) ulongMax := by
  unfold ramRange at h
  split_ifs at h with htype haddr hsize
  obtain ⟨rfl, rfl⟩ := h
  unfold ulongMax at *
  refine ⟨not_not.mp htype, by omega, rfl, ?_⟩
  split <;> omega

theorem ramRange_of_free {lo hi : Nat} (h : Free p r lo hi) (hlt : lo < hi) (hsize : r.size.toNat ≤ ulongMax) :
    ∃ b, ramRange r = some (r.addr.toNat, b) := by
  obtain ⟨htype, hlo, hhi⟩ := h.ram
  have hreached := h.reached
  unfold ramRange
  rw [if_neg (not_not.mpr htype), if_neg (by omega), if_neg (by omega)]
  exact ⟨_, rfl⟩

/-- The upper piece of an entry around Etherboot is never kept: the two lengths that are compared would have
    to add up to 4GB. -/
theorem lower_kept (hin : p.start > a ∧ p.end_ < b) (hb : b ≤ ulongMax) :
    ¬ wsub b p.end_ ≥ wsub a p.start := by
  have hlt := p.nonempty
  unfold wsub ulongMax at *
  omega

/-- What is left of a range: nothing if Etherboot covers it, all of it if they are disjoint, else the lower
    piece if there is one. -/
theorem besideEtherboot_cases (p : Placement) (hb : b ≤ ulongMax) :
    (besideEtherboot p a b = none ∧ p.start ≤ a ∧ b ≤ p.end_) ∨
      (besideEtherboot p a b = some (a, b) ∧ (p.end_ ≤ a ∨ b ≤ p.start)) ∨
      (besideEtherboot p a b = some (a, p.start) ∧ a < p.start ∧ p.start < b) ∨
      (besideEtherboot p a b = some (p.end_, b) ∧ p.start ≤ a ∧ a < p.end_ ∧ p.end_ < b) := by
  unfold besideEtherboot
  by_cases hover : p.end_ > a ∧ p.start < b
  · rw [if_pos hover]
    by_cases hcover : p.start ≤ a ∧ p.end_ ≥ b
    · rw [if_pos hcover]
      exact Or.inl ⟨rfl, hcover⟩
    rw [if_neg hcover]
    by_cases hin : p.start > a ∧ p.end_ < b
    · rw [if_pos hin, if_neg (lower_kept hin hb)]
      exact Or.inr (Or.inr (Or.inl ⟨rfl, hin.1, hover.2⟩))
    rw [if_neg hin]
    by_cases hend : p.end_ ≥ b
    · rw [if_pos hend]
      exact Or.inr (Or.inr (Or.inl ⟨rfl, by omega, hover.2⟩))
    · rw [if_neg hend, if_pos (by omega)]
      exact Or.inr (Or.inr (Or.inr ⟨rfl, by omega, hover.1, by omega⟩))
  · rw [if_neg hover]
    exact Or.inr (Or.inl ⟨rfl, by omega⟩)

theorem offered_of_offer (h : offer p r = some (a, b)) : Offered p r a b := by
  obtain ⟨⟨x, y⟩, hrange, hbeside⟩ := Option.bind_eq_some_iff.mp h
  obtain ⟨htype, hsize, rfl, hle, rfl⟩ := ramRange_spec hrange
  have hstart := p.nonempty
  have hcut : r.addr.toNat ≤ a ∧ a ≤ b ∧ b ≤ min (r.addr.toNat + r.size.toNat) ulongMax ∧
      (b ≤ p.start ∨ p.end_ ≤ a ∧ p.start ≤ r.addr.toNat) := by
    have hcases := besideEtherboot_cases p (a := r.addr.toNat)
      (Nat.min_le_right (r.addr.toNat + r.size.toNat) ulongMax)
    simp only [hbeside, Option.some.injEq, Prod.mk.injEq, reduceCtorEq, false_and, false_or] at hcases
    omega
  exact { le := hcut.2.1, ram := ⟨htype, hcut.1, by omega⟩, reached := by omega, beside := by omega,
          size := hsize, lower := by omega }

/-- None of the ranges that are looked at is larger than what its entry offers. -/
theorem offer_of_offered {lo hi : Nat} (h : Offered p r lo hi) (hlt : lo < hi) :
    ∃ a b, offer p r = some (a, b) ∧ hi - lo ≤ b - a := by
  obtain ⟨b, hrange⟩ := ramRange_of_free h.toFree hlt h.size
  obtain ⟨-, -, -, hle, rfl⟩ := ramRange_spec hrange
  obtain ⟨-, hlo, hhi⟩ := h.ram
  have hreached := h.reached
  have hbeside := h.beside
  have hlower := h.lower
  unfold offer
  rw [hrange, Option.bind_some]
  rcases besideEtherboot_cases p (a := r.addr.toNat)
      (Nat.min_le_right (r.addr.toNat + r.size.toNat) ulongMax) with
    ⟨heq, hcase⟩ | ⟨heq, hcase⟩ | ⟨heq, hcase⟩ | ⟨heq, hcase⟩
  · omega
  · exact ⟨_, _, heq, by omega⟩
  · exact ⟨_, _, heq, by omega⟩
  · exact ⟨_, _, heq, by omega⟩

end Offers

/-! ## The search -/

section Search

variable {p : Placement}

/-- One round: an offer that is smaller changes nothing. -/
theorem Search.step_cases (p : Placement) (s : Search) (r : E820Entry) :
    (s.step p r = s ∧ ∀ a b, offer p r = some (a, b) → b - a ≤ s.size) ∨
      ∃ a b, offer p r = some (a, b) ∧ s.size ≤ b - a ∧ s.step p r = ⟨b - a, a, b⟩ := by
  unfold Search.step
  cases hoffer : offer p r with
  | none => exact Or.inl ⟨rfl, nofun⟩
  | some c =>
    obtain ⟨a, b⟩ := c
    have hfree := offered_of_offer hoffer
    have hlen : wsub b a = b - a :=
      wsub_of_le hfree.le (Nat.lt_of_le_of_lt hfree.reached (by decide))
    simp only [hlen]
    split
    · next h => exact Or.inr ⟨a, b, rfl, by omega, rfl⟩
    · next h =>
      refine Or.inl ⟨rfl, ?_⟩
      intro a' b' heq
      simp only [Option.some.injEq, Prod.mk.injEq] at heq
      omega

/-- The size only grows, and no entry has offered more. -/
theorem Search.size_le (p : Placement) (map : List E820Entry) (s : Search) :
    s.size ≤ (map.foldl (Search.step p) s).size ∧
      ∀ r ∈ map, ∀ a b, offer p r = some (a, b) → b - a ≤ (map.foldl (Search.step p) s).size := by
  induction map generalizing s with
  | nil => exact ⟨Nat.le_refl _, nofun⟩
  | cons r rs ih =>
    obtain ⟨hgrow, hmost⟩ := ih (s.step p r)
    have hstep : s.size ≤ (s.step p r).size ∧ ∀ a b, offer p r = some (a, b) → b - a ≤ (s.step p r).size := by
      rcases s.step_cases p r with ⟨heq, hle⟩ | ⟨a, b, hoffer, hle, heq⟩
      · rw [heq]
        exact ⟨Nat.le_refl _, hle⟩
      · rw [heq]
        refine ⟨hle, ?_⟩
        intro a' b' hoffer'
        simp only [hoffer, Option.some.injEq, Prod.mk.injEq] at hoffer'
        obtain ⟨rfl, rfl⟩ := hoffer'
        exact Nat.le_refl _
    refine ⟨Nat.le_trans hstep.1 hgrow, ?_⟩
    intro x hx a b hoffer
    rcases List.mem_cons.mp hx with rfl | hx
    · exact Nat.le_trans (hstep.2 a b hoffer) hgrow
    · exact hmost x hx a b hoffer

/-- What has been found is an offer of one of the entries. -/
def Search.Found (p : Placement) (map : List E820Entry) (s : Search) : Prop :=
  s.size = 0 ∨ ∃ r ∈ map, offer p r = some (s.heapTop, s.heapBot) ∧ s.size = s.heapBot - s.heapTop

theorem Search.found (p : Placement) (map all : List E820Entry) (s : Search) (hsub : ∀ r ∈ map, r ∈ all)
    (h : s.Found p all) : (map.foldl (Search.step p) s).Found p all := by
  induction map generalizing s with
  | nil => exact h
  | cons r rs ih =>
    refine ih (s.step p r) (fun x hx => hsub x (List.mem_cons_of_mem _ hx)) ?_
    rcases s.step_cases p r with ⟨heq, -⟩ | ⟨a, b, hoffer, -, heq⟩
    · rw [heq]
      exact h
    · rw [heq]
      exact Or.inr ⟨r, hsub r (List.mem_cons_self ..), hoffer, rfl⟩

theorem initHeap_spec (p : Placement) (map : List E820Entry) (h : Heap) :
    (initHeap p map h = none ∧ ∀ r ∈ map, ∀ a b, offer p r = some (a, b) → b - a = 0) ∨
      ∃ h', initHeap p map h = some h' ∧ (∃ r ∈ map, offer p r = some (h'.heapTop, h'.heapBot)) ∧
        0 < h'.heapBot - h'.heapTop ∧
        ∀ r ∈ map, ∀ a b, offer p r = some (a, b) → b - a ≤ h'.heapBot - h'.heapTop := by
  have hmost := (Search.size_le p map ⟨0, h.heapTop, h.heapBot⟩).2
  have hfound := Search.found p map map ⟨0, h.heapTop, h.heapBot⟩ (fun _ hr => hr) (Or.inl rfl)
  unfold initHeap
  generalize map.foldl (Search.step p) ⟨0, h.heapTop, h.heapBot⟩ = s at hmost hfound
  by_cases hsize : s.size = 0
  · refine Or.inl ⟨if_pos hsize, ?_⟩
    intro r hr a b hoffer
    have := hmost r hr a b hoffer
    omega
  · obtain hzero | ⟨r, hr, hoffer, hlen⟩ := hfound
    · exact absurd hzero hsize
    · refine Or.inr ⟨_, if_neg hsize, ⟨r, hr, hoffer⟩, ?_, ?_⟩
      · show 0 < s.heapBot - s.heapTop
        omega
      · intro x hx a b hx'
        have := hmost x hx a b hx'
        show b - a ≤ s.heapBot - s.heapTop
        omega

end Search

/-- **The heap is the largest free range** if and only if each free range is matched by one that is looked at:
    there is a range at least as large that lies below Etherboot or in an entry that Etherboot does not begin
    in, and its entry is smaller than 4GB. -/
theorem initHeap_largest_iff (p : Placement) (map : List E820Entry) (h : Heap)
    (husable : ∃ r ∈ map, ∃ lo hi, Free p r lo hi ∧ lo < hi) :
    (∃ h', initHeap p map h = some h' ∧ Largest p map h') ↔
      ∀ r ∈ map, ∀ lo hi, Free p r lo hi →
        ∃ r' ∈ map, ∃ lo' hi', Offered p r' lo' hi' ∧ hi - lo ≤ hi' - lo' := by
  constructor
  · rintro ⟨h', heq, hlargest⟩ r hr lo hi hfree
    rcases initHeap_spec p map h with ⟨hnone, -⟩ | ⟨h'', heq', ⟨r', hr', hoffer⟩, -, -⟩
    · cases hnone.symm.trans heq
    · cases heq.symm.trans heq'
      exact ⟨r', hr', _, _, offered_of_offer hoffer, hlargest.largest r hr lo hi hfree⟩
  · intro hmatch
    -- a range that is looked at is not larger than what its entry offers
    have hoffer {r : E820Entry} (hr : r ∈ map) {lo hi : Nat} (hfree : Free p r lo hi) (hlt : lo < hi) :
        ∃ r' ∈ map, ∃ a b, offer p r' = some (a, b) ∧ hi - lo ≤ b - a := by
      obtain ⟨r', hr', lo', hi', hoffered, hle⟩ := hmatch r hr lo hi hfree
      obtain ⟨a, b, hab, hle'⟩ := offer_of_offered hoffered (by omega)
      exact ⟨r', hr', a, b, hab, Nat.le_trans hle hle'⟩
    rcases initHeap_spec p map h with ⟨-, hzero⟩ | ⟨h', heq, ⟨r, hr, hfound⟩, -, hmost⟩
    · obtain ⟨r, hr, lo, hi, hfree, hlt⟩ := husable
      obtain ⟨r', hr', a, b, hab, hle⟩ := hoffer hr hfree hlt
      have := hzero r' hr' a b hab
      omega
    · refine ⟨h', heq, ⟨r, hr, (offered_of_offer hfound).toFree⟩, ?_⟩
      intro x hx lo hi hfree
      by_cases hlt : lo < hi
      · obtain ⟨r', hr', a, b, hab, hle⟩ := hoffer hx hfree hlt
        exact Nat.le_trans hle (hmost r' hr' a b hab)
      · omega

/-- RAM from 1MB to 64MB, and two places of Etherboot in it. -/
def highRam : E820Entry := ⟨0x100000, 0x3f00000, e820Ram⟩

def nearEnd : Placement := ⟨0x3f00000, 0x3f80000, by decide, by decide⟩

def nearStart : Placement := ⟨0x200000, 0x280000, by decide, by decide⟩

/-- Etherboot lies near the end of the RAM: the heap is the range below it. -/
theorem initHeap_nearEnd :
    ∃ h', initHeap nearEnd [highRam] ⟨0, 0, 0, fun _ => 0⟩ = some h' ∧ Largest nearEnd [highRam] h' := by
  have hbelow : Free nearEnd highRam 0x100000 0x3f00000 :=
    ⟨by decide, ⟨rfl, by decide, by decide⟩, by decide, by decide⟩
  refine (initHeap_largest_iff nearEnd [highRam] ⟨0, 0, 0, fun _ => 0⟩
    ⟨highRam, List.mem_singleton.mpr rfl, _, _, hbelow, by decide⟩).mpr ?_
  intro r hr lo hi hfree
  obtain rfl := List.mem_singleton.mp hr
  refine ⟨highRam, hr, _, _, ⟨hbelow, by decide, by decide⟩, ?_⟩
  -- above Etherboot there is half a megabyte
  have hlo : 0x100000 ≤ lo := hfree.ram.2.1
  have hhi : hi ≤ 0x4000000 := hfree.ram.2.2
  have hbeside : hi ≤ 0x3f00000 ∨ 0x3f80000 ≤ lo := hfree.beside
  omega

/-- Etherboot lies near the start of the RAM: the megabyte below it is taken instead of the 61MB above it. -/
theorem initHeap_nearStart :
    (∃ r ∈ [highRam], ∃ lo hi, Free nearStart r lo hi ∧ lo < hi) ∧
      ¬ ∃ h', initHeap nearStart [highRam] ⟨0, 0, 0, fun _ => 0⟩ = some h' ∧
        Largest nearStart [highRam] h' := by
  have habove : Free nearStart highRam 0x280000 0x4000000 :=
    ⟨by decide, ⟨rfl, by decide, by decide⟩, by decide, by decide⟩
  refine ⟨⟨highRam, List.mem_singleton.mpr rfl, _, _, habove, by decide⟩, ?_⟩
  rintro ⟨h', heq, hlargest⟩
  have hheap : (initHeap nearStart [highRam] ⟨0, 0, 0, fun _ => 0⟩).map (fun h => h.heapBot - h.heapTop) =
      some 0x100000 := by decide +kernel
  rw [heq, Option.map_some, Option.some.injEq] at hheap
  have := hlargest.largest highRam (List.mem_singleton.mpr rfl) _ _ habove
  omega

end Alloc
