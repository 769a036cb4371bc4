import Etherboot.Lib.Memory

set_option autoImplicit false

/-! # Checking and placing load segments (`core/osloader.c`)

`prepSegment` is the gate every image loader puts a load segment through before anything is copied:
it refuses a segment that overlaps Etherboot or its heap or lies in no RAM region, and zeroes the
tail of one it accepts. `findSegment` looks for room for a relocatable image. Both run on a 32-bit
machine: `unsigned long` arithmetic is taken modulo `2^32`, that on the memory map modulo `2^64`. -/

namespace Osloader

open Memory

def e820Ram : UInt32 := 1

/-- `struct e820entry`. -/
structure E820Entry where
  addr : UInt64
  size : UInt64
  type : UInt32
  deriving DecidableEq, Repr

/-- `[lo, hi)` lies inside of this entry, and the entry is RAM. -/
def E820Entry.Holds (r : E820Entry) (lo hi : Nat) : Prop :=
  r.type = e820Ram ∧ r.addr.toNat ≤ lo ∧ hi ≤ r.addr.toNat + r.size.toNat

/-- What the segment checks read of the machine: `virt_to_phys(_text)`, `virt_to_phys(_end)`, the
    heap pointers, and `meminfo.map[0 .. map_count)`. `em64` stands for `EM_CURRENT_64_PRESENT` in a
    build with `CONFIG_X86_64` and is false in any other. -/
structure Machine where
  text : UInt32
  end_ : UInt32
  heapPtr : UInt32
  heapBot : UInt32
  map : List E820Entry
  em64 : Bool

/-- Why `prep_segment` returned 0, in the order of its messages. -/
inductive SegmentError where
  | fileszGtMemsz
  | overlapsEtherboot
  | overlapsHeap
  | noMemoryRegion
  deriving DecidableEq, Repr

/-- The test both overlap checks make: `[start, end)` against `[lo, hi)`. -/
def overlaps (start end_ : Nat) (lo hi : UInt32) : Bool :=
  decide (end_ > lo.toNat) && decide (start < hi.toNat)

/-- One turn of the search for a memory region that holds the segment. -/
def fits (start end_ : Nat) (r : E820Entry) : Bool :=
  decide (r.type = e820Ram) &&
    (decide (start ≥ r.addr.toNat) &&
      decide (end_ ≤ (r.addr.toNat + r.size.toNat) % 2 ^ 64))

/-- `prep_segment`; its parameters `istart` and `iend` are unused. The result is the memory with the
    segment's tail zeroed. -/
def prepSegment (m : Machine) (mem : Store) (start mid end_ : Nat) : Except SegmentError Store :=
  if mid > end_ then .error .fileszGtMemsz
  else if overlaps start end_ m.text m.end_ then .error .overlapsEtherboot
  else if overlaps start end_ m.heapPtr m.heapBot then .error .overlapsHeap
  else if m.map.any (fits start end_) then
    .ok (if end_ > mid then memset mem mid 0 (end_ - mid) else mem)
  else .error .noMemoryRegion

theorem prepSegment_ok {m : Machine} {mem mem' : Store} {start mid end_ : Nat}
    (h : prepSegment m mem start mid end_ = .ok mem') :
    mid ≤ end_ ∧ overlaps start end_ m.text m.end_ = false ∧
      overlaps start end_ m.heapPtr m.heapBot = false ∧ (∃ r ∈ m.map, fits start end_ r = true) ∧
      mem' = if end_ > mid then memset mem mid 0 (end_ - mid) else mem := by
  unfold prepSegment at h
  split at h
  · cases h
  · next hmid =>
      split at h
      · cases h
      · next htext =>
          split at h
          · cases h
          · next hheap =>
              split at h
              · next hfit =>
                  simp only [Except.ok.injEq] at h
                  exact ⟨by omega, by simpa using htext, by simpa using hheap,
                    List.any_eq_true.mp hfit, h.symm⟩
              · cases h

theorem overlaps_eq_false {start end_ : Nat} {lo hi : UInt32} :
    overlaps start end_ lo hi = false ↔ end_ ≤ lo.toNat ∨ hi.toNat ≤ start := by
  simp only [overlaps, Bool.and_eq_false_iff, decide_eq_false_iff_not]
  omega

theorem fits_eq_true {start end_ : Nat} {r : E820Entry} :
    fits start end_ r = true ↔
      r.type = e820Ram ∧ r.addr.toNat ≤ start ∧ end_ ≤ (r.addr.toNat + r.size.toNat) % 2 ^ 64 := by
  simp [fits]

/-! ## Placing a relocatable image -/

def ulongMax : Nat := 4294967295

/-- The place one memory region offers to an image, cut back so as not to run into Etherboot or the
    heap. A start inside the heap is moved to `heap_ptr`, not behind the heap: the source says so. -/
def regionBase (m : Machine) (size align : Nat) (r : E820Entry) : Option Nat :=
  if r.type ≠ e820Ram then none
  else if (r.addr.toNat + r.size.toNat) % 2 ^ 64 > ulongMax then none
  else
    let rStart := r.addr.toNat % 2 ^ 32
    let rEnd := (rStart + r.size.toNat) % 2 ^ 32
    let rEnd := if rEnd > m.text.toNat ∧ rStart < m.text.toNat then m.text.toNat else rEnd
    let rStart := if rStart > m.text.toNat ∧ rStart < m.end_.toNat then m.end_.toNat else rStart
    let rEnd := if rEnd > m.heapPtr.toNat ∧ rStart < m.heapPtr.toNat then m.heapPtr.toNat else rEnd
    let rStart :=
      if rStart > m.heapPtr.toNat ∧ rStart < m.heapBot.toNat then m.heapPtr.toNat else rStart
    let rStart := ((rStart + align + (2 ^ 32 - 1)) % 2 ^ 32) &&&
      (ulongMax - (align + (2 ^ 32 - 1)) % 2 ^ 32)
    if rEnd ≥ rStart ∧ rEnd - rStart ≥ size then some rStart else none

/-- `find_segment`: the first region with room, or `ULONG_MAX`. -/
def findSegment (m : Machine) (size align : Nat) : Nat :=
  if align &&& ((align + (2 ^ 32 - 1)) % 2 ^ 32) ≠ 0 then ulongMax
  else (m.map.findSome? (regionBase m size align)).getD ulongMax

end Osloader
