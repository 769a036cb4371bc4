import Etherboot.Osloader.Segment
import Mathlib.Data.Nat.Bitwise

set_option autoImplicit false

/-! # Room for a relocatable image (`find_segment` in `core/osloader.c`)

The first RAM entry that has room for the image gives its place: its start, moved behind Etherboot if it lies
in there, or to the start of the heap if it lies in there, and rounded up. The place is right unless one of
three things happens: the entry begins where Etherboot begins, it begins in the heap, or the rounding
overflows (`findSegment_right_iff`). -/

namespace Osloader

open E820Entry

/-- `[lo, hi)` has no address of `[lo', hi')`. -/
def Apart (lo hi lo' hi' : Nat) : Prop := ∀ a, lo ≤ a → a < hi → ¬ (lo' ≤ a ∧ a < hi')

variable (m : Machine)

/-- A right place for an image. -/
structure Placed (size align base : Nat) : Prop where
  aligned : align ∣ base
  noOverflow : base + size < 2 ^ 32
  ram : ∃ r ∈ m.map, r.Holds base (base + size)
  etherboot : Apart base (base + size) m.text.toNat m.end_.toNat
  heap : Apart base (base + size) m.heapPtr.toNat m.heapBot.toNat

/-- The start of an entry, moved behind Etherboot if it lies inside of it. -/
def E820Entry.behindText (r : E820Entry) : Nat :=
  if r.addr.toNat > m.text.toNat ∧ r.addr.toNat < m.end_.toNat then m.end_.toNat else r.addr.toNat

/-- The start of an entry lies in the heap. -/
def E820Entry.InHeap (r : E820Entry) : Prop :=
  m.heapPtr.toNat ≤ r.behindText m ∧ r.behindText m < m.heapBot.toNat
  deriving Decidable

/-- The start that is rounded up. -/
def E820Entry.begins (r : E820Entry) : Nat :=
  if r.InHeap m then m.heapPtr.toNat else r.behindText m

def roundUp (align x : Nat) : Nat := (x + align - 1) / align * align

/-- The entry gives a right place if there is room in it: rounding does not overflow, and it leads out of
    Etherboot if the entry begins with Etherboot, and out of the heap if it begins in there. -/
structure PlacesWell (align : Nat) (r : E820Entry) : Prop where
  noWrap : r.begins m + align - 1 < 2 ^ 32
  etherboot : r.addr.toNat = m.text.toNat → m.end_.toNat ≤ roundUp align (r.begins m)
  heap : r.InHeap m → m.heapBot.toNat ≤ roundUp align (r.begins m)

/-! ## Rounding -/

theorem and_high {w k x : Nat} (hk : k ≤ w) (hx : x < 2 ^ w) : x &&& (2 ^ w - 2 ^ k) = x / 2 ^ k * 2 ^ k := by
  have hmask : 2 ^ w - 2 ^ k = (2 ^ (w - k) - 1) <<< k := by
    rw [Nat.shiftLeft_eq, Nat.sub_mul, ← Nat.pow_add, Nat.sub_add_cancel hk, Nat.one_mul]
  rw [hmask, ← Nat.shiftLeft_eq, ← Nat.shiftRight_eq_div_pow]
  apply Nat.eq_of_testBit_eq
  intro i
  simp only [Nat.testBit_and, Nat.testBit_shiftLeft, Nat.testBit_two_pow_sub_one, Nat.testBit_shiftRight]
  by_cases hi : k ≤ i
  · rw [Nat.add_sub_cancel' hi]
    by_cases hw : i < w
    · simp [hi, show i - k < w - k by omega]
    · have hbit : x.testBit i = false :=
        Nat.testBit_lt_two_pow (Nat.lt_of_lt_of_le hx (Nat.pow_le_pow_right (by decide) (by omega)))
      simp [hbit]
  · simp [hi]

theorem roundUp_spec (k x : Nat) : x ≤ roundUp (2 ^ k) x ∧ 2 ^ k ∣ roundUp (2 ^ k) x := by
  refine ⟨?_, Nat.dvd_mul_left ..⟩
  have hdiv := Nat.div_add_mod (x + 2 ^ k - 1) (2 ^ k)
  unfold roundUp
  rw [Nat.mul_comm] at hdiv
  omega

/-- Rounding on a 32-bit machine: an overflow gives 0. -/
theorem rounded_eq {k x : Nat} (hk : k < 32) (hx : x < 2 ^ 32) :
    ((x + 2 ^ k + (2 ^ 32 - 1)) % 2 ^ 32) &&& (ulongMax - (2 ^ k + (2 ^ 32 - 1)) % 2 ^ 32) =
      if x + 2 ^ k - 1 < 2 ^ 32 then roundUp (2 ^ k) x else 0 := by
  have hpos : 0 < 2 ^ k := Nat.two_pow_pos k
  have hle : 2 ^ k ≤ 2 ^ 31 := Nat.pow_le_pow_right (by decide) (by omega)
  have hmask : ulongMax - (2 ^ k + (2 ^ 32 - 1)) % 2 ^ 32 = 2 ^ 32 - 2 ^ k := by
    unfold ulongMax
    omega
  rw [hmask, and_high (Nat.le_of_lt hk) (Nat.mod_lt _ (by decide))]
  split
  · next h =>
    have heq : (x + 2 ^ k + (2 ^ 32 - 1)) % 2 ^ 32 = x + 2 ^ k - 1 := by omega
    rw [heq, roundUp]
  · next h =>
    have hlt : (x + 2 ^ k + (2 ^ 32 - 1)) % 2 ^ 32 < 2 ^ k := by omega
    rw [Nat.div_eq_of_lt hlt, Nat.zero_mul]

/-! ## The place in one entry -/

section Entry

variable {m : Machine} {size k : Nat} {r : E820Entry} {base : Nat}

/-- The end of an entry, cut back to Etherboot and to the heap if they begin inside of it. -/
def E820Entry.cutEnd (m : Machine) (r : E820Entry) : Nat :=
  let rEnd := r.addr.toNat + r.size.toNat
  let rEnd := if rEnd > m.text.toNat ∧ r.addr.toNat < m.text.toNat then m.text.toNat else rEnd
  if rEnd > m.heapPtr.toNat ∧ r.behindText m < m.heapPtr.toNat then m.heapPtr.toNat else rEnd

theorem E820Entry.cutEnd_le (m : Machine) (r : E820Entry) :
    r.cutEnd m ≤ r.addr.toNat + r.size.toNat ∧
      (r.addr.toNat < m.text.toNat → r.cutEnd m ≤ m.text.toNat) ∧
      (r.behindText m < m.heapPtr.toNat → r.cutEnd m ≤ m.heapPtr.toNat) := by
  unfold cutEnd
  simp only
  split_ifs <;> omega

theorem E820Entry.begins_lt {m : Machine} {r : E820Entry} (hr : r.addr.toNat < 2 ^ 32) :
    r.begins m < 2 ^ 32 := by
  have hheap := m.heapPtr.toNat_lt
  have hend := m.end_.toNat_lt
  unfold begins behindText
  split_ifs <;> omega

/-- The start is not moved down unless it lies in the heap. -/
theorem E820Entry.le_begins {m : Machine} {r : E820Entry} :
    r.addr.toNat ≤ r.behindText m ∧
      (r.addr.toNat > m.text.toNat → m.end_.toNat ≤ r.behindText m) ∧
      (¬ r.InHeap m → r.begins m = r.behindText m) ∧ (r.InHeap m → r.begins m = m.heapPtr.toNat) := by
  unfold begins behindText
  refine ⟨?_, ?_, fun h => if_neg h, fun h => if_pos h⟩ <;> split_ifs <;> omega

/-- The start as the source computes it: one that is the start of the heap already is not moved. -/
theorem E820Entry.begins_eq (m : Machine) (r : E820Entry) :
    (if r.behindText m > m.heapPtr.toNat ∧ r.behindText m < m.heapBot.toNat then m.heapPtr.toNat
      else r.behindText m) = r.begins m := by
  by_cases hin : r.InHeap m
  · rw [begins, if_pos hin]
    unfold InHeap at hin
    split <;> omega
  · rw [begins, if_neg hin]
    unfold InHeap at hin
    split <;> omega

theorem regionBase_some (hk : k < 32) (hbelow : r.type = e820Ram → r.addr.toNat + r.size.toNat ≤ 2 ^ 32)
    (h : regionBase m size (2 ^ k) r = some base) :
    r.type = e820Ram ∧ r.addr.toNat + r.size.toNat < 2 ^ 32 ∧
      base = (if r.begins m + 2 ^ k - 1 < 2 ^ 32 then roundUp (2 ^ k) (r.begins m) else 0) ∧
      base ≤ r.cutEnd m ∧ size ≤ r.cutEnd m - base := by
  unfold regionBase at h
  split_ifs at h with htype hend
  have hlt : r.addr.toNat + r.size.toNat < 2 ^ 32 := by
    have := hbelow (not_not.mp htype)
    unfold ulongMax at hend
    omega
  have haddr : r.addr.toNat % 2 ^ 32 = r.addr.toNat := Nat.mod_eq_of_lt (by omega)
  simp only [haddr, Nat.mod_eq_of_lt hlt] at h
  -- the end and the start that the source has computed when it rounds
  change (if r.cutEnd m ≥ _ ∧ r.cutEnd m - _ ≥ size then some _ else none) = some base at h
  rw [show (if r.addr.toNat > m.text.toNat ∧ r.addr.toNat < m.end_.toNat then m.end_.toNat else r.addr.toNat) =
    r.behindText m from rfl, begins_eq, rounded_eq hk (begins_lt (by omega))] at h
  generalize (if r.begins m + 2 ^ k - 1 < 2 ^ 32 then roundUp (2 ^ k) (r.begins m) else 0) = b at h ⊢
  split at h
  · next hroom =>
    cases h
    exact ⟨not_not.mp htype, hlt, rfl, hroom.1, hroom.2⟩
  · cases h

/-- If the rounding does not overflow, the place is right exactly if the entry gives right places. -/
theorem placed_iff (hk : k < 32) (hsize : 1 ≤ size) (hr : r ∈ m.map)
    (hbelow : r.type = e820Ram → r.addr.toNat + r.size.toNat ≤ 2 ^ 32)
    (h : regionBase m size (2 ^ k) r = some base)
    (hwrap : r.begins m + 2 ^ k - 1 < 2 ^ 32) :
    Placed m size (2 ^ k) base ↔ PlacesWell m (2 ^ k) r := by
  obtain ⟨htype, hlt, hbase, hle, hroom⟩ := regionBase_some hk hbelow h
  rw [if_pos hwrap] at hbase
  subst hbase
  obtain ⟨hend, htext, hheap⟩ := r.cutEnd_le m
  obtain ⟨haddr, hbehind, hout, hin⟩ := @le_begins m r
  obtain ⟨hup, halign⟩ := roundUp_spec k (r.begins m)
  constructor
  · intro hplaced
    have hetherboot := hplaced.etherboot (roundUp (2 ^ k) (r.begins m)) (Nat.le_refl _) (by omega)
    have hlive := hplaced.heap (roundUp (2 ^ k) (r.begins m)) (Nat.le_refl _) (by omega)
    refine ⟨hwrap, ?_, ?_⟩
    · intro heq
      by_cases hheap' : r.InHeap m
      · have := hin hheap'
        have := hheap'.2
        omega
      · have := hout hheap'
        omega
    · intro hheap'
      have := hin hheap'
      omega
  · intro hwell
    -- the place begins where the entry does, or behind the heap
    have hfrom : r.behindText m ≤ roundUp (2 ^ k) (r.begins m) := by
      by_cases hheap' : r.InHeap m
      · exact Nat.le_trans (Nat.le_of_lt hheap'.2) (hwell.heap hheap')
      · rw [← hout hheap']
        exact hup
    refine ⟨halign, by omega, ⟨r, hr, htype, by omega, by omega⟩, ?_, ?_⟩
    · intro a ha ha' hin'
      have := hwell.etherboot
      omega
    · intro a ha ha' hin'
      have := hwell.heap
      unfold InHeap at this
      omega

end Entry

/-! ## The search -/

theorem findSegment_eq {m : Machine} {size k : Nat} (hk : k < 32) :
    findSegment m size (2 ^ k) =
      ((m.map.find? fun r => (regionBase m size (2 ^ k) r).isSome).bind
        (regionBase m size (2 ^ k))).getD ulongMax := by
  have hpos : 0 < 2 ^ k := Nat.two_pow_pos k
  have hle : 2 ^ k ≤ 2 ^ 31 := Nat.pow_le_pow_right (by decide) (by omega)
  have hpower : 2 ^ k &&& (2 ^ k + (2 ^ 32 - 1)) % 2 ^ 32 = 0 := by
    have hmask : (2 ^ k + (2 ^ 32 - 1)) % 2 ^ 32 = 2 ^ k - 1 := by omega
    rw [hmask, Nat.and_two_pow_sub_one_eq_mod, Nat.mod_self]
  unfold findSegment
  rw [if_neg (not_not.mpr hpower)]
  congr 1
  induction m.map with
  | nil => rfl
  | cons r rs ih =>
    rw [List.findSome?_cons, List.find?_cons]
    cases hbase : regionBase m size (2 ^ k) r with
    | none => simpa using ih
    | some base => simp [hbase]

/-- **The place that is found** is right if and only if the first entry with room gives right places, or its
    start overflows when it is rounded up and the place at address 0 is right. -/
theorem findSegment_right_iff (m : Machine) (size k : Nat) (hk : k < 32) (hsize : 1 ≤ size)
    (hbelow : ∀ r ∈ m.map, r.type = e820Ram → r.addr.toNat + r.size.toNat ≤ 2 ^ 32) :
    (findSegment m size (2 ^ k) ≠ ulongMax → Placed m size (2 ^ k) (findSegment m size (2 ^ k))) ↔
      ∀ r, (m.map.find? fun r => (regionBase m size (2 ^ k) r).isSome) = some r →
        PlacesWell m (2 ^ k) r ∨ 2 ^ 32 ≤ r.begins m + 2 ^ k - 1 ∧ Placed m size (2 ^ k) 0 := by
  rw [findSegment_eq hk]
  cases hfind : m.map.find? fun r => (regionBase m size (2 ^ k) r).isSome with
  | none => simp
  | some r =>
    have hr := List.mem_of_find?_eq_some hfind
    have hsome := List.find?_some hfind
    obtain ⟨base, hbase⟩ := Option.isSome_iff_exists.mp hsome
    obtain ⟨-, hlt, heq, hle, hroom⟩ := regionBase_some hk (hbelow r hr) hbase
    have hne : base ≠ ulongMax := by
      have := (r.cutEnd_le m).1
      unfold ulongMax
      omega
    simp only [Option.bind_some, hbase, Option.getD_some, Option.some.injEq, forall_eq', ne_eq, hne,
      not_false_eq_true, forall_const]
    by_cases hwrap : r.begins m + 2 ^ k - 1 < 2 ^ 32
    · rw [placed_iff hk hsize hr (hbelow r hr) hbase hwrap]
      constructor
      · exact Or.inl
      · rintro (hwell | ⟨hge, -⟩)
        · exact hwell
        · omega
    · rw [if_neg hwrap] at heq
      subst heq
      constructor
      · intro hplaced
        exact Or.inr ⟨by omega, hplaced⟩
      · rintro (hwell | ⟨-, hplaced⟩)
        · exact absurd hwell.noWrap hwrap
        · exact hplaced

/-- RAM from 1MB to 64MB with the heap and Etherboot at its end. -/
def highMachine : Machine := ⟨0x3f80000, 0x4000000, 0x3f00000, 0x3f80000, [⟨0x100000, 0x3f00000, e820Ram⟩], false⟩

theorem findSegment_highMachine :
    findSegment highMachine 0x1000 (2 ^ 12) = 0x100000 ∧
      Placed highMachine 0x1000 (2 ^ 12) (findSegment highMachine 0x1000 (2 ^ 12)) := by
  have hfound : findSegment highMachine 0x1000 (2 ^ 12) = 0x100000 := by decide +kernel
  refine ⟨hfound, (findSegment_right_iff highMachine 0x1000 12 (by decide) (by decide) ?_).mpr ?_ ?_⟩
  · intro r hr _
    obtain rfl := List.mem_singleton.mp hr
    decide
  · intro r hr
    obtain rfl := List.mem_singleton.mp (List.mem_of_find?_eq_some hr)
    exact Or.inl ⟨by decide, by decide, by decide⟩
  · decide

/-- The same RAM with Etherboot at its start: the image is placed over Etherboot. -/
theorem findSegment_over_etherboot :
    ¬ (findSegment { highMachine with text := 0x100000, end_ := 0x180000 } 0x1000 (2 ^ 12) ≠ ulongMax →
      Placed { highMachine with text := 0x100000, end_ := 0x180000 } 0x1000 (2 ^ 12)
        (findSegment { highMachine with text := 0x100000, end_ := 0x180000 } 0x1000 (2 ^ 12))) := by
  intro h
  exact (h (by decide)).etherboot 0x100000 (by decide) (by decide) (by decide)

end Osloader
