import Mathlib.Data.Int.ModEq
import Etherboot.Lib.Memory

set_option autoImplicit false

/-! # Random intervals (`random`, `rfc2131_sleep_interval`, `slam_sleep_interval`)

The generator of `core/misc.c` multiplies the seed by 40014 modulo 2147483563 = 40014 * 53668 + 12211. It
divides by 53668 first and works on quotient and remainder, so that numbers of 32 bits are enough. An
operation that leaves their range has no result here, so that a result says that nothing has overflowed. -/

namespace Misc

open Memory

/-! ## The generator -/

/-- The result of an operation on `int32_t`, unless it overflows. -/
def int32 (x : Int) : Option Int32 := if -2 ^ 31 ≤ x ∧ x < 2 ^ 31 then some (Int32.ofInt x) else none

def modulus : Int := 2147483563

/-- The update of the seed; `/` truncates. -/
def update (seed : Int32) : Option Int32 := do
  let q ← int32 (seed.toInt.tdiv 53668)
  let product ← int32 (53668 * q.toInt)
  let remainder ← int32 (seed.toInt - product.toInt)
  let first ← int32 (40014 * remainder.toInt)
  let second ← int32 (12211 * q.toInt)
  let next ← int32 (first.toInt - second.toInt)
  if next.toInt < 0 then int32 (next.toInt + modulus) else pure next

/-- The sum of `currticks()`, the first four bytes of the hardware address and the other two. -/
def firstSeed (ticks : UInt32) (node : Store) : Int32 :=
  Int32.ofInt (ticks.toNat + Int.bmod (le32 node 0) (2 ^ 32) + Int.bmod (le16 node 4) (2 ^ 16))

/-- `random`: the number that is returned is the next seed. -/
def random (ticks : UInt32) (node : Store) (seed : Int32) : Option Int32 :=
  update (if seed = 0 then firstSeed ticks node else seed)

theorem int32_eq {x : Int} (h : -2 ^ 31 ≤ x ∧ x < 2 ^ 31) : ∃ y, int32 x = some y ∧ y.toInt = x :=
  ⟨Int32.ofInt x, if_pos h, Int32.toInt_ofInt_of_le h.1 h.2⟩

theorem tdiv_cases (x : Int) :
    0 ≤ x.tdiv 53668 ∧ 0 ≤ x - 53668 * x.tdiv 53668 ∧ x - 53668 * x.tdiv 53668 < 53668 ∨
      x.tdiv 53668 ≤ 0 ∧ -53668 < x - 53668 * x.tdiv 53668 ∧ x - 53668 * x.tdiv 53668 ≤ 0 := by
  have hsplit := Int.mul_tdiv_add_tmod x 53668
  rcases Int.le_total 0 x with hx | hx
  · have := Int.tdiv_nonneg hx (show (0 : Int) ≤ 53668 by decide)
    have := Int.tmod_nonneg 53668 hx
    have := Int.tmod_lt_of_pos x (show (0 : Int) < 53668 by decide)
    omega
  · have := Int.tdiv_nonneg (Int.neg_nonneg_of_nonpos hx) (show (0 : Int) ≤ 53668 by decide)
    have := Int.tmod_nonneg 53668 (Int.neg_nonneg_of_nonpos hx)
    have := Int.tmod_lt_of_pos (-x) (show (0 : Int) < 53668 by decide)
    rw [Int.neg_tdiv] at *
    rw [Int.neg_tmod] at *
    omega

/-- The next number: it is the product of the seed and 40014 modulo 2147483563. -/
structure Follows (seed next : Int32) : Prop where
  congr : next.toInt ≡ 40014 * seed.toInt [ZMOD modulus]
  nonneg : 0 ≤ next.toInt
  le : next.toInt ≤ 2147483562

theorem update_follows (seed : Int32) : ∃ next, update seed = some next ∧ Follows seed next := by
  have hlow := seed.le_toInt
  have hhigh := seed.toInt_lt
  have hcases := tdiv_cases seed.toInt
  obtain ⟨q, hq, hqval⟩ := int32_eq (x := seed.toInt.tdiv 53668) (by omega)
  rw [← hqval] at hcases
  obtain ⟨product, hp, hpval⟩ := int32_eq (x := 53668 * q.toInt) (by omega)
  obtain ⟨remainder, hr, hrval⟩ := int32_eq (x := seed.toInt - product.toInt) (by omega)
  obtain ⟨first, hf, hfval⟩ := int32_eq (x := 40014 * remainder.toInt) (by omega)
  obtain ⟨second, hs, hsval⟩ := int32_eq (x := 12211 * q.toInt) (by omega)
  obtain ⟨next, hn, hnval⟩ := int32_eq (x := first.toInt - second.toInt) (by omega)
  -- 53668 * 40014 is 12211 less than the modulus
  have hmod : 40014 * seed.toInt = next.toInt + modulus * q.toInt := by
    rw [modulus]
    omega
  simp only [update, hq, hp, hr, hf, hs, hn, Option.bind_eq_bind, Option.bind_some]
  split
  · next hneg =>
    obtain ⟨sum, hsum, hsumval⟩ := int32_eq (x := next.toInt + modulus) (by rw [modulus]; omega)
    refine ⟨sum, hsum, ?_, ?_, ?_⟩
    · rw [hsumval, hmod]
      exact (Int.modEq_iff_dvd.mpr ⟨q.toInt - 1, by ring⟩)
    · rw [hsumval, modulus]
      omega
    · rw [hsumval, modulus]
      omega
  · next hpos =>
    refine ⟨next, rfl, ?_, by omega, by omega⟩
    rw [hmod]
    exact (Int.modEq_iff_dvd.mpr ⟨q.toInt, by ring⟩)

theorem random_range (ticks : UInt32) (node : Store) (seed : Int32) :
    ∃ r, random ticks node seed = some r ∧ 0 ≤ r.toInt ∧ r.toInt ≤ 2147483562 := by
  obtain ⟨r, hr, hfollows⟩ := update_follows (if seed = 0 then firstSeed ticks node else seed)
  exact ⟨r, hr, hfollows.nonneg, hfollows.le⟩

/-! ## The intervals -/

def randMax : Int := 2147483647

def ticksPerSec : Nat := 18

def twoSecondDivisor : Int := randMax.tdiv ticksPerSec

/-- The limited exponent; `BACKOFF_LIMIT` need not be defined. -/
def limited (backoffLimit : Option Nat) (exp : Nat) : Nat :=
  match backoffLimit with
  | some limit => if exp > limit then limit else exp
  | none => exp

/-- `base << exp` as a `long`. -/
def shifted (base : Int32) (exp : Nat) : Int := Int.bmod (base.toInt * 2 ^ exp) (2 ^ 32)

/-- `rfc2131_sleep_interval`, with what `random` returns; the sum is an `unsigned long`, the result is not. -/
def rfc2131SleepInterval (backoffLimit : Option Nat) (random : Int32) (base : Int32) (exp : Nat) : Int :=
  Int.bmod (shifted base (limited backoffLimit exp) +
    (ticksPerSec - random.toInt.tdiv twoSecondDivisor)) (2 ^ 32)

def slamBackoffLimit : Nat := 5

/-- The documented minimum: `SLAM_INITIAL_MIN_TIMEOUT` or `SLAM_BASE_MIN_TIMEOUT`. -/
def slamMinimum (exp : Int32) : Int := if exp < 0 then (ticksPerSec : Int).tdiv 3 else 2 * ticksPerSec

/-- The documented range: `SLAM_INITIAL_TIMEOUT_INTERVAL`, or `SLAM_BASE_TIMEOUT_INTERVAL` that is doubled with
    each try up to the limit. -/
def slamRange (exp : Int32) : Int :=
  if exp < 0 then ticksPerSec else 4 * ticksPerSec * 2 ^ limited (some slamBackoffLimit) exp.toInt.toNat

/-- `slam_sleep_interval`, with what `random` returns. -/
def slamSleepInterval (random : Int32) (exp : Int32) : Int :=
  random.toInt.tdiv (randMax.tdiv (slamRange exp)) + slamMinimum exp

theorem tdiv_divisor_le {r d n : Int} (hr : 0 ≤ r ∧ r ≤ 2147483562) (hd : 0 < d) (hn : 2147483562 < (n + 1) * d) :
    0 ≤ r.tdiv d ∧ r.tdiv d ≤ n := by
  rw [Int.tdiv_eq_ediv_of_nonneg hr.1]
  exact ⟨Int.ediv_nonneg hr.1 hd.le, Int.le_of_lt_add_one ((Int.ediv_lt_iff_lt_mul hd).mpr (by omega))⟩

theorem slamRange_divides (exp : Int32) :
    0 < randMax.tdiv (slamRange exp) ∧ 2147483562 < (slamRange exp + 1) * randMax.tdiv (slamRange exp) := by
  have hall : ∀ e < slamBackoffLimit + 1, 0 < randMax.tdiv (4 * ticksPerSec * 2 ^ e) ∧
      2147483562 < (4 * ticksPerSec * 2 ^ e + 1) * randMax.tdiv (4 * ticksPerSec * 2 ^ e) := by decide
  rw [slamRange]
  split
  · decide
  · refine hall _ ?_
    simp only [limited]
    split <;> omega

/-- **Random numbers and intervals**: the update of the seed does not overflow and is the multiplication it
    stands for, and the intervals stay in their bounds. -/
theorem update_and_intervals :
    (∀ seed, ∃ next, update seed = some next ∧ Follows seed next) ∧
      ∀ (ticks : UInt32) (node : Store) (seed : Int32), ∃ r, random ticks node seed = some r ∧
        (∀ backoffLimit base exp, shifted base (limited backoffLimit exp) < 2 ^ 31 - ticksPerSec →
          shifted base (limited backoffLimit exp) + 1 ≤ rfc2131SleepInterval backoffLimit r base exp ∧
            rfc2131SleepInterval backoffLimit r base exp ≤
              shifted base (limited backoffLimit exp) + ticksPerSec) ∧
        ∀ exp, slamMinimum exp ≤ slamSleepInterval r exp ∧
          slamSleepInterval r exp ≤ slamMinimum exp + slamRange exp := by
  refine ⟨update_follows, fun ticks node seed => ?_⟩
  obtain ⟨r, hr, hrange⟩ := random_range ticks node seed
  refine ⟨r, hr, fun backoffLimit base exp hbelow => ?_, fun exp => ?_⟩
  · have hpart : 0 ≤ r.toInt.tdiv twoSecondDivisor ∧ r.toInt.tdiv twoSecondDivisor ≤ 17 :=
      tdiv_divisor_le hrange (by decide) (by decide)
    have hlow : -2 ^ 31 ≤ shifted base (limited backoffLimit exp) :=
      Int.le_bmod (show 0 < 2 ^ 32 by decide)
    rw [rfc2131SleepInterval, Int.bmod_eq_of_le_mul_two]
    all_goals
      simp only [ticksPerSec] at hbelow ⊢
      omega
  · obtain ⟨hpos, hlt⟩ := slamRange_divides exp
    have hpart := tdiv_divisor_le hrange hpos hlt
    rw [slamSleepInterval]
    omega

/-- The first interval of a request: two seconds and up to one more. -/
theorem bootp_interval : ∃ r, random 7 (fun _ => 2) 0 = some r ∧
    37 ≤ rfc2131SleepInterval none r 36 0 ∧ rfc2131SleepInterval none r 36 0 ≤ 54 := by
  obtain ⟨r, hr, hinterval, -⟩ := update_and_intervals.2 7 (fun _ => 2) 0
  exact ⟨r, hr, hinterval none 36 0 (by decide)⟩

end Misc
