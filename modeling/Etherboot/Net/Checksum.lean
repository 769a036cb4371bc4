import Etherboot.Lib.OnesComplement

set_option autoImplicit false

/-! # The internet checksum (`core/misc.c`)

`ipchksum` sums bytes with an end-around carry after each one and returns the complement;
`addIpchksums` puts the checksums of two adjacent pieces together. Both are stated on a
little-endian host. `ipchksum_eq` and `addIpchksums_eq` say what they compute in terms of
`OnesComplement.canon`; no later proof looks inside them. -/

namespace Net

open OnesComplement

/-- `~x & 0xFFFF`. -/
def compl16 (x : Nat) : Nat := 0xFFFF - x % 0x10000

theorem compl16_of_le {x : Nat} (h : x ≤ 65535) : compl16 x = 65535 - x := by
  unfold compl16; omega

/-- The loop of `ipchksum` from index `i` on, `sum` being the running sum. -/
def ipchksumLoop : Nat → Nat → List UInt8 → Nat
  | _, sum, [] => sum
  | i, sum, v :: vs =>
    let value := if i % 2 = 1 then 256 * v.toNat else v.toNat
    let sum := sum + value
    ipchksumLoop (i + 1) (if sum > 0xFFFF then (sum + sum / 0x10000) % 0x10000 else sum) vs

/-- `ipchksum(data, length)`, the data given as a list. -/
def ipchksum (data : List UInt8) : Nat := compl16 (ipchksumLoop 0 0 data)

def bswap16 (x : Nat) : Nat := x % 256 * 256 + x / 256 % 256

/-- `add_ipchksums(offset, sum, new)`. -/
def addIpchksums (offset sum new : Nat) : Nat :=
  let sum := compl16 sum
  let new := compl16 new
  let new := if offset % 2 = 1 then bswap16 new else new
  let checksum := sum + new
  compl16 (if checksum > 0xFFFF then checksum - 0xFFFF else checksum)

/-- The accumulator always holds the representative of the sum so far. -/
theorem ipchksumLoop_canon (data : List UInt8) :
    ∀ (i n : Nat), ipchksumLoop i (canon n) data
      = canon (n + byteSum (decide (i % 2 = 1)) data) := by
  induction data with
  | nil => intro i n; simp [ipchksumLoop, byteSum]
  | cons v vs ih =>
    intro i n
    have hv := v.toNat_lt
    have hn := canon_le n
    have hpar : (!decide (i % 2 = 1)) = decide ((i + 1) % 2 = 1) := by
      rcases Nat.mod_two_eq_zero_or_one i with h | h <;> simp [h, Nat.add_mod]
    have hle : canon n + (if i % 2 = 1 then 256 * v.toNat else v.toNat) ≤ 2 * 65535 := by
      split <;> omega
    rw [ipchksumLoop]
    simp only [canon_carry hle, canon_add_left]
    rw [ih, byteSum, hpar]
    simp only [decide_eq_true_eq, Nat.add_assoc]

theorem ipchksum_eq (data : List UInt8) : ipchksum data = 65535 - canon (byteSum false data) := by
  have h := ipchksumLoop_canon data 0 0
  simp only [canon_of_le (Nat.zero_le _), Nat.zero_add, Nat.zero_mod] at h
  rw [ipchksum, h]
  exact compl16_of_le (canon_le _)

/-- Swapping the bytes of a word multiplies it by `256`, up to multiples of `0xffff`. -/
theorem bswap16_canon (n : Nat) : bswap16 (canon n) = canon (256 * n) := by
  have hle := canon_le n
  have hz := @canon_eq_zero n
  have hswap : 256 * canon n = bswap16 (canon n) + 65535 * (canon n / 256) := by
    unfold bswap16; omega
  apply eq_canon
  · unfold bswap16; omega
  · rw [← Nat.add_mul_mod_self_left (bswap16 (canon n)) 65535 (canon n / 256), ← hswap,
      Nat.mul_mod, canon_mod, ← Nat.mul_mod]
  · unfold bswap16; omega

/-- Two checksums combine to the checksum of the joined sum, the second piece counted from its
    place in the whole. -/
theorem addIpchksums_eq (offset a b : Nat) :
    addIpchksums offset (65535 - canon a) (65535 - canon b)
      = 65535 - canon (a + if offset % 2 = 1 then 256 * b else b) := by
  have ha := canon_le a
  have hb := canon_le b
  have hswap : (if offset % 2 = 1 then bswap16 (canon b) else canon b)
      = canon (if offset % 2 = 1 then 256 * b else b) := by
    split
    · exact bswap16_canon b
    · rfl
  have hca : compl16 (65535 - canon a) = canon a := by rw [compl16_of_le (by omega)]; omega
  have hcb : compl16 (65535 - canon b) = canon b := by rw [compl16_of_le (by omega)]; omega
  unfold addIpchksums
  simp only [hca, hcb, hswap]
  rw [canon_sub (by have := canon_le (if offset % 2 = 1 then 256 * b else b); omega),
    canon_add_left, canon_add_right, compl16_of_le (canon_le _)]

/-- Of the place of the second piece only the parity counts. -/
theorem addIpchksums_at {offset : Nat} {a : List UInt8} (b : List UInt8) (h : offset % 2 = a.length % 2) :
    addIpchksums offset (ipchksum a) (ipchksum b) = ipchksum (a ++ b) := by
  rw [ipchksum_eq, ipchksum_eq, ipchksum_eq, addIpchksums_eq, byteSum_append, parity, h]
  split
  · rw [canon_byteSum_shift]
  · rfl

/-- **The checksums of two pieces** give the checksum of the whole, with the same zero. -/
theorem addIpchksums_append (a b : List UInt8) :
    addIpchksums a.length (ipchksum a) (ipchksum b) = ipchksum (a ++ b) :=
  addIpchksums_at b rfl

end Net
