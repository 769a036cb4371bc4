import Mathlib.Tactic.Common
import Mathlib.Tactic.Ring

set_option autoImplicit false

/-! # Ones-complement arithmetic on 16-bit words

The 16-bit ones-complement numbers have two zeros, `0` and `0xffff`. `canon n` is the one
representative of `n` that an accumulator started at `0` can hold: `0` for `n = 0` only, and a value
in `1 … 0xffff` congruent to `n` modulo `0xffff` otherwise. Every fact about end-around carries and
about combining partial sums is then a fact about `canon` of an ordinary sum. -/

namespace OnesComplement

/-- The representative an accumulator of positive and zero terms holds. -/
def canon (n : Nat) : Nat := if n = 0 then 0 else (n - 1) % 65535 + 1

theorem canon_le (n : Nat) : canon n ≤ 65535 := by
  unfold canon; split <;> omega

variable {n : Nat}

theorem canon_of_le (h : n ≤ 65535) : canon n = n := by
  unfold canon; split <;> omega

theorem canon_eq_zero : canon n = 0 ↔ n = 0 := by
  unfold canon; split <;> omega

/-- The all-ones value stands for the positive multiples of `0xffff`. -/
theorem canon_eq_top : canon n = 65535 ↔ 0 < n ∧ n % 65535 = 0 := by
  unfold canon; split <;> omega

theorem canon_mod (n : Nat) : canon n % 65535 = n % 65535 := by
  unfold canon; split <;> omega

/-- The representative is the only value with its residue, its range and its zero. -/
theorem eq_canon {x : Nat} (hle : x ≤ 65535) (hmod : x % 65535 = n % 65535)
    (hzero : x = 0 ↔ n = 0) : x = canon n := by
  unfold canon; split <;> omega

/-- Numbers with one residue and one zero have one representative. -/
theorem canon_congr {m : Nat} (hmod : m % 65535 = n % 65535) (hzero : m = 0 ↔ n = 0) : canon m = canon n :=
  eq_canon (canon_le m) ((canon_mod m).trans hmod) (canon_eq_zero.trans hzero)

/-- Positive numbers have one representative exactly if they have one residue. -/
theorem canon_inj {m : Nat} (hm : 0 < m) (hn : 0 < n) : canon m = canon n ↔ m % 65535 = n % 65535 := by
  constructor
  · intro h
    rw [← canon_mod m, h, canon_mod]
  · intro h
    exact canon_congr h (by omega)

/-- `canon` may be applied to a partial sum without changing the total. -/
theorem canon_add_left (a b : Nat) : canon (canon a + b) = canon (a + b) := by
  unfold canon; split <;> split <;> split <;> omega

theorem canon_add_right (a b : Nat) : canon (a + canon b) = canon (a + b) := by
  rw [Nat.add_comm, canon_add_left, Nat.add_comm]

/-- One end-around carry brings a sum of two words back to its representative. -/
theorem canon_carry {s : Nat} (h : s ≤ 2 * 65535) :
    (if s > 65535 then (s + s / 65536) % 65536 else s) = canon s := by
  unfold canon; split <;> split <;> omega

theorem canon_sub {s : Nat} (h : s ≤ 2 * 65535) : (if s > 65535 then s - 65535 else s) = canon s := by
  unfold canon; split <;> split <;> omega

/-- A word and its complement add up to the all-ones zero. -/
theorem canon_add_compl : canon (n + (65535 - canon n)) = 65535 := by
  rw [canon_eq_top]
  have hle := canon_le n
  have hmod := canon_mod n
  have hz := @canon_eq_zero n
  omega

/-! ## Byte strings as little-endian words -/

/-- The sum of a byte string read as little-endian words; `odd` tells whether the first byte is the
    high half of a word. -/
def byteSum : Bool → List UInt8 → Nat
  | _, [] => 0
  | odd, v :: vs => (if odd then 256 * v.toNat else v.toNat) + byteSum (!odd) vs

/-- The parity of the byte that follows `n` more bytes. -/
def parity (odd : Bool) (n : Nat) : Bool := if n % 2 = 1 then !odd else odd

theorem parity_succ (odd : Bool) (n : Nat) : parity odd (n + 1) = parity (!odd) n := by
  unfold parity
  rcases Nat.mod_two_eq_zero_or_one n with h | h <;> cases odd <;> simp [h, Nat.add_mod]

theorem byteSum_append (odd : Bool) (u v : List UInt8) :
    byteSum odd (u ++ v) = byteSum odd u + byteSum (parity odd u.length) v := by
  induction u generalizing odd with
  | nil => simp [byteSum, parity]
  | cons x xs ih =>
    rw [List.cons_append, byteSum, byteSum, ih, List.length_cons, parity_succ, Nat.add_assoc]

theorem byteSum_append_even (odd : Bool) {u : List UInt8} (v : List UInt8) (h : u.length % 2 = 0) :
    byteSum odd (u ++ v) = byteSum odd u + byteSum odd v := by
  rw [byteSum_append, parity, if_neg (by omega)]

theorem byteSum_eq_zero (odd : Bool) (u : List UInt8) : byteSum odd u = 0 ↔ ∀ v ∈ u, v = 0 := by
  induction u generalizing odd with
  | nil => simp [byteSum]
  | cons x xs ih =>
    have hx : x.toNat = 0 ↔ x = 0 := by
      rw [← UInt8.toNat_inj]; rfl
    rw [byteSum, Nat.add_eq_zero_iff, ih, List.forall_mem_cons]
    apply and_congr _ Iff.rfl
    cases odd <;> simp [hx]

/-- Moving a byte string by one place multiplies its sum by `256`, up to multiples of `0xffff`. -/
theorem byteSum_shift (odd : Bool) (u : List UInt8) :
    256 * byteSum odd u % 65535 = byteSum (!odd) u % 65535 := by
  induction u generalizing odd with
  | nil => rfl
  | cons x xs ih =>
    have hrest := ih (!odd)
    rw [byteSum, byteSum, Nat.mul_add, Nat.add_mod, hrest, ← Nat.add_mod]
    cases odd with
    | false => simp
    | true =>
      -- a high byte moves to the low place of the next word
      have hx : 256 * (256 * x.toNat) = x.toNat + 65535 * x.toNat := by ring
      simp only [if_true, Bool.not_true, Bool.not_false, hx, Bool.false_eq_true, if_false]
      rw [Nat.add_right_comm, Nat.add_mul_mod_self_left]

theorem canon_byteSum_shift (n : Nat) (odd : Bool) (u : List UInt8) :
    canon (n + 256 * byteSum odd u) = canon (n + byteSum (!odd) u) := by
  apply canon_congr
  · rw [Nat.add_mod, byteSum_shift, ← Nat.add_mod]
  · have hzero : byteSum odd u = 0 ↔ byteSum (!odd) u = 0 := by
      rw [byteSum_eq_zero, byteSum_eq_zero]
    omega

end OnesComplement
