import Mathlib.Data.Nat.Bitwise
import Etherboot.Lib.Memory

set_option autoImplicit false

/-! # Bitmaps in memory

Bit `i` of a bitmap at address `base` is bit `i & 7` of the byte `i >> 3` behind it. Addresses wrap
at `2^32`. Setting or clearing a bit changes that one and no other (`bit_setBit`, `bit_clearBit`),
and setting a clear one adds one to their number (`count_setBit`). -/

namespace Bitmap

variable (m : Store) (base : Nat)

def addr (i : Nat) : Nat := (base + i >>> 3) % 2 ^ 32

/-- `(bitmap[i >> 3] >> (i & 7)) & 1` -/
def bit (i : Nat) : Bool := (m (addr base i)).toNat.testBit (i &&& 7)

/-- `bitmap[i >> 3] |= 1 << (i & 7)` -/
def setBit (i : Nat) : Store :=
  m.set (addr base i) (UInt8.ofNat ((m (addr base i)).toNat ||| 1 <<< (i &&& 7)))

/-- `bitmap[i >> 3] &= ~(1 << (i & 7))` -/
def clearBit (i : Nat) : Store :=
  m.set (addr base i) (UInt8.ofNat ((m (addr base i)).toNat &&& (0xff ^^^ 1 <<< (i &&& 7))))

/-- The number of bits set among the first `n`. -/
def count (n : Nat) : Nat := (List.range n).countP (bit m base)

theorem and_seven (i : Nat) : i &&& 7 = i % 8 := Nat.and_two_pow_sub_one_eq_mod i 3

variable {i j n : Nat}

/-- Different bits are in different bytes or at different places of one byte. -/
theorem addr_inj (hi : i < 2 ^ 32) (hj : j < 2 ^ 32) (h : addr base i = addr base j) : i / 8 = j / 8 := by
  unfold addr at h
  omega

variable {m base}

theorem bit_congr {m' : Store} (h : m' (addr base i) = m (addr base i)) : bit m' base i = bit m base i := by
  rw [bit, bit, h]

theorem testBit_ofNat {x k : Nat} (hx : x < 256) : (UInt8.ofNat x).toNat.testBit k = x.testBit k := by
  rw [UInt8.toNat_ofNat', Nat.mod_eq_of_lt hx]

theorem bit_set {v : UInt8} (hi : i < 2 ^ 32) (hj : j < 2 ^ 32) (c : Bool)
    (hv : ∀ k < 8, v.toNat.testBit k = if k = i % 8 then c else (m (addr base i)).toNat.testBit k) :
    bit (m.set (addr base i) v) base j = if j = i then c else bit m base j := by
  by_cases ha : addr base j = addr base i
  · have hq := addr_inj base hj hi ha
    rw [bit, bit, ha, Store.set_self, and_seven, hv _ (Nat.mod_lt _ (by decide))]
    by_cases hji : j = i
    · rw [if_pos hji, if_pos (by rw [hji])]
    · rw [if_neg hji, if_neg (by omega)]
  · rw [bit, Store.set_of_ne _ _ ha, if_neg (fun h => ha (by rw [h]))]
    rfl

theorem one_shiftLeft_lt (i : Nat) : 1 <<< (i &&& 7) < 256 := by
  rw [Nat.shiftLeft_eq, Nat.one_mul, and_seven]
  exact Nat.pow_lt_pow_right (by decide) (Nat.mod_lt i (by decide : 8 > 0))

theorem testBit_one_shiftLeft (i k : Nat) : (1 <<< (i &&& 7)).testBit k = decide (i % 8 = k) := by
  rw [Nat.shiftLeft_eq, Nat.one_mul, and_seven, Nat.testBit_two_pow]

theorem bit_setBit (hi : i < 2 ^ 32) (hj : j < 2 ^ 32) :
    bit (setBit m base i) base j = if j = i then true else bit m base j := by
  refine bit_set hi hj true (fun k hk => ?_)
  rw [testBit_ofNat (Nat.or_lt_two_pow (n := 8) (m (addr base i)).toNat_lt (one_shiftLeft_lt i)),
    Nat.testBit_or, testBit_one_shiftLeft]
  by_cases h : k = i % 8
  · simp [h]
  · rw [if_neg h, decide_eq_false (fun h' => h h'.symm), Bool.or_false]

theorem bit_clearBit (hi : i < 2 ^ 32) (hj : j < 2 ^ 32) :
    bit (clearBit m base i) base j = if j = i then false else bit m base j := by
  refine bit_set hi hj false (fun k hk => ?_)
  have hff : (0xff : Nat).testBit k = true := by
    rw [show (0xff : Nat) = 2 ^ 8 - 1 from rfl, Nat.testBit_two_pow_sub_one]
    exact decide_eq_true hk
  rw [testBit_ofNat (Nat.lt_of_le_of_lt Nat.and_le_left (m (addr base i)).toNat_lt),
    Nat.testBit_and, Nat.testBit_xor, hff, testBit_one_shiftLeft]
  by_cases h : k = i % 8
  · simp [h]
  · rw [if_neg h, decide_eq_false (fun h' => h h'.symm)]
    simp

theorem count_congr {m' : Store} (h : ∀ i < n, bit m' base i = bit m base i) :
    count m' base n = count m base n :=
  List.countP_congr (fun i hi => by rw [h i (List.mem_range.mp hi)])

theorem count_eq_of_all : count m base n = n ↔ ∀ i < n, bit m base i = true := by
  have h := List.countP_eq_length (p := bit m base) (l := List.range n)
  rw [List.length_range] at h
  rw [count, h]
  simp

theorem countP_range_update {f g : Nat → Bool} (hi : i < n) (hf : f i = false)
    (hg : ∀ j < n, g j = if j = i then true else f j) :
    (List.range n).countP g = (List.range n).countP f + 1 := by
  induction n with
  | zero => omega
  | succ n ih =>
    have hlast := hg n (Nat.lt_succ_self n)
    simp only [List.range_succ, List.countP_append, List.countP_singleton]
    by_cases h : n = i
    · subst h
      have hsame : (List.range n).countP g = (List.range n).countP f :=
        List.countP_congr (fun j hj => by
          have hlt := List.mem_range.mp hj
          rw [hg j (by omega), if_neg (by omega)])
      rw [hsame, hlast, if_pos rfl, hf]
      rfl
    · rw [if_neg h] at hlast
      rw [ih (by omega) (fun j hj => hg j (by omega)), hlast]
      omega

theorem count_setBit (hi : i < n) (hn : n ≤ 2 ^ 32) (hclear : bit m base i = false) :
    count (setBit m base i) base n = count m base n + 1 :=
  countP_range_update hi hclear (fun _ _ => bit_setBit (by omega) (by omega))

end Bitmap
