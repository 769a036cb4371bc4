import Etherboot.Lib.Memory

set_option autoImplicit false

/-! # The integers of the SLAM protocol

A SLAM integer is a field of one to seven bytes. The top three bits of its first byte give its
length, the other five and the bytes that follow the value, most significant byte first. The client
(`proto_slam.c`) and the server (`mini-slamd.c`) have the same `slam_encode` and `slam_decode`;
`long` is `sizeof(unsigned long)` of the machine they run on, 4 for the client.

The encoder needs a byte of its own for the length if the top byte of the value leaves no room for
it, and so writes five bytes for a value of 29 bits or more. The decoder refuses a field longer than
an `unsigned long`. `slamRoundTrip_iff` says that this is the only way for a round trip to fail. -/

namespace Slam

open Memory

/-- The loop at the start of `slam_encode`: how many of the low `bytes` bytes of the value remain
    when its leading zero bytes are dropped. -/
def significant (value : Nat) : Nat → Nat
  | 0 => 0
  | b + 1 => if 0xff &&& (value >>> (b <<< 3)) = 0 then significant value b else b + 1

/-- The loop at the end of `slam_encode`: the low `bytes` bytes of the value go to `data`. -/
def putBytes (m : Store) (data value : Nat) : Nat → Nat × Store
  | 0 => (data, m)
  | b + 1 => putBytes (m.set data (UInt8.ofNat (0xff &&& (value >>> (b <<< 3))))) (data + 1) value b

/-- `slam_encode`: the advanced pointer and the buffer, or `none` where it returns -1. -/
def slamEncode (long : Nat) (m : Store) (ptr fin value : Nat) : Option (Nat × Store) :=
  let bytes := significant value long
  let bytes := if bytes ≤ 0 then 1 else bytes
  if ptr + bytes ≥ fin then none
  else if 0xe0 &&& (value >>> ((bytes - 1) <<< 3)) = 0 then
    -- packed together
    let m := m.set ptr (UInt8.ofNat (bytes <<< 5 ||| value >>> ((bytes - 1) <<< 3)))
    some (putBytes m (ptr + 1) value (bytes - 1))
  else
    let m := m.set ptr (UInt8.ofNat ((bytes + 1) <<< 5))
    some (putBytes m (ptr + 1) value bytes)

/-- The length that the first byte of a field announces. -/
def fieldLen (b : UInt8) : Nat := (b.toNat >>> 5) &&& 7

/-- `slam_skip`: the advanced pointer, or `none` where it returns -1. -/
def slamSkip (m : Store) (ptr fin : Nat) : Option Nat :=
  if ptr ≥ fin then none
  else
    let bytes := fieldLen (m ptr)
    if bytes = 0 then none
    else if ptr + bytes ≥ fin then none
    else some (ptr + bytes)

/-- The loop of `slam_decode`, on an `unsigned long` of `long` bytes. -/
def getBytes (long : Nat) (m : Store) (ptr value : Nat) : Nat → Nat
  | 0 => value
  | b + 1 => getBytes long m (ptr + 1) (((value <<< 8) % 2 ^ (8 * long)) ||| (m ptr).toNat) b

/-- `slam_decode`: the value, the advanced pointer and `*err`. A field that crosses the end is
    read all the same. -/
def slamDecode (long : Nat) (m : Store) (ptr fin : Nat) (err : Int) : Nat × Nat × Int :=
  let err := if ptr ≥ fin then -1 else err
  let bytes := fieldLen (m ptr)
  if bytes = 0 ∨ bytes > long then (0, ptr, -1)
  else
    let err := if ptr + bytes ≥ fin then -1 else err
    (getBytes long m (ptr + 1) ((m ptr).toNat &&& 0x1f) (bytes - 1), ptr + bytes, err)

/-! ## What the encoder writes -/

theorem byte_eq (value k : Nat) : 0xff &&& (value >>> (k <<< 3)) = value / 256 ^ k % 256 := by
  have hk : k <<< 3 = 8 * k := by rw [Nat.shiftLeft_eq]; omega
  rw [Nat.and_comm, show (0xff : Nat) = 2 ^ 8 - 1 from rfl, Nat.and_two_pow_sub_one_eq_mod, hk,
    Nat.shiftRight_eq_div_pow, Nat.pow_mul]

theorem shiftRight_byte (value k : Nat) : value >>> (k <<< 3) = value / 256 ^ k := by
  have hk : k <<< 3 = 8 * k := by rw [Nat.shiftLeft_eq]; omega
  rw [hk, Nat.shiftRight_eq_div_pow, Nat.pow_mul]

variable {value n long ptr : Nat} {m : Store}

/-- Dropping zero bytes drops nothing of the value. -/
theorem lt_pow_significant (h : value < 256 ^ n) : value < 256 ^ significant value n := by
  induction n with
  | zero => exact h
  | succ n ih =>
    rw [significant, byte_eq]
    split
    · next hz =>
      apply ih
      have hq : value / 256 ^ n < 256 := by
        rw [Nat.div_lt_iff_lt_mul (Nat.pow_pos (by decide)), Nat.mul_comm]
        rwa [Nat.pow_succ] at h
      rw [Nat.mod_eq_of_lt hq] at hz
      exact (Nat.div_eq_zero_iff_lt (Nat.pow_pos (by decide))).mp hz
    · exact h

theorem significant_le (value n : Nat) : significant value n ≤ n := by
  induction n with
  | zero => exact Nat.le_refl 0
  | succ n ih =>
    rw [significant]
    split
    · omega
    · omega

/-- The byte the loop stops at is not zero. -/
theorem pow_le_of_significant {b : Nat} (h : significant value n = b + 1) : 256 ^ b ≤ value := by
  induction n with
  | zero => simp [significant] at h
  | succ n ih =>
    rw [significant, byte_eq] at h
    split at h
    · exact ih h
    · next hnz =>
      have hbn : b = n := by omega
      subst hbn
      by_contra hlt
      rw [Nat.div_eq_of_lt (by omega)] at hnz
      exact hnz rfl

/-- The number of value bytes of a field. -/
def valueBytes (long value : Nat) : Nat := max 1 (significant value long)

theorem putBytes_eq (m : Store) (data value n : Nat) :
    putBytes m data value n = (data + n, m.splice data (beBytes value n)) := by
  induction n generalizing m data with
  | zero => simp [putBytes, beBytes, Store.splice_nil]
  | succ n ih =>
    have hbyte : UInt8.ofNat (0xff &&& (value >>> (n <<< 3))) = UInt8.ofNat (value / 256 ^ n) := by
      rw [byte_eq]
      exact UInt8.ofNat_mod_size
    rw [putBytes, ih, hbyte, beBytes, Store.splice_cons, Nat.add_right_comm, Nat.add_assoc]

theorem and_e0_eq_zero {x : Nat} (hx : x < 256) : 0xe0 &&& x = 0 ↔ x < 32 := by
  have h : ∀ i : Fin 256, 0xe0 &&& i.val = 0 ↔ i.val < 32 := by decide +kernel
  exact h ⟨x, hx⟩

theorem or_top {bytes x : Nat} (hx : x < 32) : bytes <<< 5 ||| x = bytes * 32 + x := by
  rw [← Nat.shiftLeft_add_eq_or_of_lt (show x < 2 ^ 5 from hx), Nat.shiftLeft_eq]

theorem valueBytes_pos (long value : Nat) : 0 < valueBytes long value := by
  unfold valueBytes; omega

theorem lt_pow_valueBytes (h : value < 256 ^ long) : value < 256 ^ valueBytes long value :=
  Nat.lt_of_lt_of_le (lt_pow_significant h)
    (Nat.pow_le_pow_right (by decide) (by unfold valueBytes; omega))

theorem top_lt (h : value < 256 ^ long) : value / 256 ^ (valueBytes long value - 1) < 256 := by
  have hpos := valueBytes_pos long value
  rw [Nat.div_lt_iff_lt_mul (Nat.pow_pos (by decide)), Nat.mul_comm, ← Nat.pow_succ,
    show (valueBytes long value - 1).succ = valueBytes long value by omega]
  exact lt_pow_valueBytes h

/-- The length of the field of a value. -/
def fieldBytes (long value : Nat) : Nat :=
  let bytes := valueBytes long value
  if value / 256 ^ (bytes - 1) < 32 then bytes else bytes + 1

/-- The bytes of the field of a value. -/
def field (long value : Nat) : List UInt8 :=
  let n := fieldBytes long value
  UInt8.ofNat (n * 32 + value / 256 ^ (n - 1)) :: beBytes value (n - 1)

theorem fieldBytes_pos (long value : Nat) : 0 < fieldBytes long value := by
  have hpos := valueBytes_pos long value
  simp only [fieldBytes]
  split <;> omega

@[simp] theorem length_field (long value : Nat) : (field long value).length = fieldBytes long value := by
  have hpos := fieldBytes_pos long value
  simp only [field, List.length_cons, length_beBytes]
  omega

/-- The first byte of a field has five bits for the value, and they are enough. -/
theorem fieldTop_lt (h : value < 256 ^ long) : value / 256 ^ (fieldBytes long value - 1) < 32 := by
  simp only [fieldBytes]
  split
  · next hpack => exact hpack
  · rw [Nat.add_sub_cancel, Nat.div_eq_of_lt (lt_pow_valueBytes h)]
    decide

/-- What `slam_encode` does: it writes the field, if there is a byte to spare behind its value. -/
theorem slamEncode_eq (hv : value < 256 ^ long) (m : Store) (ptr fin : Nat) :
    slamEncode long m ptr fin value =
      if ptr + valueBytes long value < fin then
        some (ptr + fieldBytes long value, m.splice ptr (field long value))
      else none := by
  have hbytes : (if significant value long ≤ 0 then 1 else significant value long) =
      valueBytes long value := by
    unfold valueBytes
    split <;> omega
  have hpos := valueBytes_pos long value
  simp only [slamEncode, hbytes]
  by_cases hfit : ptr + valueBytes long value < fin
  · rw [if_neg (by omega), if_pos hfit, shiftRight_byte]
    simp only [and_e0_eq_zero (top_lt hv), field, fieldBytes, Store.splice_cons]
    by_cases hpack : value / 256 ^ (valueBytes long value - 1) < 32
    · simp only [if_pos hpack, putBytes_eq, or_top hpack]
      rw [show ptr + 1 + (valueBytes long value - 1) = ptr + valueBytes long value by omega]
    · simp only [if_neg hpack, putBytes_eq, Nat.shiftLeft_eq, Nat.add_sub_cancel,
        Nat.div_eq_of_lt (lt_pow_valueBytes hv), Nat.add_zero]
      rw [Nat.add_right_comm, Nat.add_assoc]
  · rw [if_pos (by omega), if_neg hfit]

/-- How long a field is: its first byte has five bits of the value, each other byte eight. -/
theorem fieldBytes_le_iff (h : value < 256 ^ long) (k : Nat) :
    fieldBytes long value ≤ k + 1 ↔ value < 32 * 256 ^ k := by
  have htop := fieldTop_lt h
  constructor
  · intro hle
    rw [Nat.div_lt_iff_lt_mul (Nat.pow_pos (by decide))] at htop
    exact Nat.lt_of_lt_of_le htop
      (Nat.mul_le_mul_left _ (Nat.pow_le_pow_right (by decide) (by omega)))
  · intro hlt
    have hvb : valueBytes long value ≤ k + 1 := by
      by_contra hgt
      have hsig : significant value long = valueBytes long value - 1 + 1 := by
        unfold valueBytes at hgt ⊢; omega
      have hpow : 256 ^ (k + 1) ≤ 256 ^ (valueBytes long value - 1) :=
        Nat.pow_le_pow_right (by decide) (by omega)
      have := pow_le_of_significant hsig
      omega
    simp only [fieldBytes]
    split
    · exact hvb
    · next hpack =>
      -- as many value bytes as the field has would leave room for the length
      by_contra hgt
      have hvb' : valueBytes long value = k + 1 := by omega
      rw [hvb', Nat.add_sub_cancel, Nat.div_lt_iff_lt_mul (Nat.pow_pos (by decide))] at hpack
      exact hpack hlt

/-- A field has more than four bytes if the value has more than 29 bits. -/
theorem fieldBytes_le_four (h : value < 256 ^ long) :
    fieldBytes long value ≤ 4 ↔ value < 2 ^ 29 := fieldBytes_le_iff h 3

/-! ## What the decoder reads -/

theorem fieldLen_eq (b : UInt8) : fieldLen b = b.toNat / 32 := by
  have hb := b.toNat_lt
  rw [fieldLen, show (7 : Nat) = 2 ^ 3 - 1 from rfl, Nat.and_two_pow_sub_one_eq_mod,
    Nat.shiftRight_eq_div_pow]
  omega

theorem and_1f (n : Nat) : n &&& 0x1f = n % 32 := Nat.and_two_pow_sub_one_eq_mod n 5

theorem fieldLen_ofNat {t : Nat} (hn : n < 8) (ht : t < 32) :
    fieldLen (UInt8.ofNat (n * 32 + t)) = n ∧ (UInt8.ofNat (n * 32 + t)).toNat &&& 0x1f = t := by
  rw [fieldLen_eq, and_1f, UInt8.toNat_ofNat']
  omega

/-- As long as the value fits, the decoder's shifts lose nothing. -/
theorem getBytes_eq (long acc : Nat) {bs : List UInt8}
    (hm : m.Has ptr bs) (hfit : (acc + 1) * 256 ^ bs.length ≤ 256 ^ long) :
    getBytes long m ptr acc bs.length = beValue acc bs := by
  induction bs generalizing ptr acc with
  | nil => rfl
  | cons b bs ih =>
    obtain ⟨hb, hbs⟩ := Store.has_cons.mp hm
    rw [List.length_cons, Nat.pow_succ, Nat.mul_comm (256 ^ _), ← Nat.mul_assoc] at hfit
    have hpow : 1 ≤ 256 ^ bs.length := Nat.one_le_pow _ _ (by decide)
    have hlt : acc * 256 < 2 ^ (8 * long) := by
      rw [Nat.pow_mul]
      calc acc * 256 < (acc + 1) * 256 * 1 := by omega
        _ ≤ (acc + 1) * 256 * 256 ^ bs.length := Nat.mul_le_mul_left _ hpow
        _ ≤ 256 ^ long := hfit
    have hacc : ((acc <<< 8) % 2 ^ (8 * long)) ||| b.toNat = acc * 256 + b.toNat := by
      have hshift : acc <<< 8 = acc * 256 := Nat.shiftLeft_eq acc 8
      rw [Nat.mod_eq_of_lt (hshift ▸ hlt), ← Nat.shiftLeft_add_eq_or_of_lt b.toNat_lt, hshift]
    rw [List.length_cons, getBytes, hb, hacc]
    have hb' := b.toNat_lt
    exact ih _ hbs (Nat.le_trans (Nat.mul_le_mul_right _ (by omega)) hfit)

/-- Where a field stands, the decoder finds its value, unless the field is longer than an
    `unsigned long`. -/
theorem slamDecode_field {long' : Nat}
    (hv : value < 256 ^ long) (hm : m.Has ptr (field long value)) (hlen : fieldBytes long value ≤ long')
    (hlen8 : fieldBytes long value < 8) (fin : Nat) (err : Int) :
    slamDecode long' m ptr fin err =
      (value, ptr + fieldBytes long value, if ptr + fieldBytes long value ≥ fin then -1 else err) := by
  have hpos := fieldBytes_pos long value
  have htop := fieldTop_lt hv
  obtain ⟨hfirst, hrest⟩ := Store.has_cons.mp hm
  obtain ⟨hn, ht⟩ := fieldLen_ofNat hlen8 htop
  have hval : getBytes long' m (ptr + 1) (value / 256 ^ (fieldBytes long value - 1))
      (fieldBytes long value - 1) = value := by
    have hget := getBytes_eq long' (value / 256 ^ (fieldBytes long value - 1)) hrest (by
      rw [length_beBytes]
      calc _ ≤ 256 * 256 ^ (fieldBytes long value - 1) := Nat.mul_le_mul_right _ (by omega)
        _ = 256 ^ fieldBytes long value := by
            rw [Nat.mul_comm, ← Nat.pow_succ, Nat.succ_eq_add_one, Nat.sub_add_cancel hpos]
        _ ≤ 256 ^ long' := Nat.pow_le_pow_right (by decide) hlen)
    rw [length_beBytes, beValue_beBytes, Nat.mul_comm, Nat.div_add_mod] at hget
    exact hget
  simp only [slamDecode, hfirst, hn, ht, hval]
  rw [if_neg (by omega)]
  congr 2
  by_cases hend : ptr + fieldBytes long value ≥ fin
  · rw [if_pos hend, if_pos hend]
  · rw [if_neg hend, if_neg hend, if_neg (by omega)]

theorem getBytes_lt (long : Nat) (m : Store) {k : Nat} (ptr b : Nat) (h : value < 2 ^ k) :
    getBytes long m ptr value b < 2 ^ (k + 8 * b) := by
  induction b generalizing k value ptr with
  | zero => exact h
  | succ b ih =>
    have hnext : ((value <<< 8) % 2 ^ (8 * long)) ||| (m ptr).toNat < 2 ^ (k + 8) := by
      refine Nat.or_lt_two_pow ?_ ?_
      · refine Nat.lt_of_le_of_lt (Nat.mod_le ..) ?_
        rw [Nat.shiftLeft_eq, Nat.pow_add]
        exact Nat.mul_lt_mul_of_pos_right h (by decide)
      · exact Nat.lt_of_lt_of_le (m ptr).toNat_lt (Nat.pow_le_pow_right (by decide) (by omega))
    rw [getBytes, show k + 8 * (b + 1) = k + 8 + 8 * b by omega]
    exact ih _ hnext

/-- A field that is decoded without an error ends before the end, and its value leaves the top bit of
    an `unsigned long` free. -/
theorem slamDecode_ok {fin v ptr' : Nat} {err err' : Int}
    (h : slamDecode long m ptr fin err = (v, ptr', err')) (herr : ¬ err' < 0) :
    0 < long ∧ ptr < ptr' ∧ ptr' < fin ∧ v < 2 ^ (8 * long - 1) := by
  simp only [slamDecode] at h
  split at h
  · cases h
    exact absurd (by decide) herr
  · next hlen =>
      obtain ⟨rfl, rfl, rfl⟩ := h
      have htop : (m ptr).toNat &&& 0x1f < 2 ^ 5 := by
        rw [and_1f]
        exact Nat.mod_lt _ (by decide)
      have hvalue := getBytes_lt long m (ptr + 1) (fieldLen (m ptr) - 1) htop
      refine ⟨by omega, by omega, by omega, Nat.lt_of_lt_of_le hvalue ?_⟩
      exact Nat.pow_le_pow_right (by decide) (by omega)

/-- A field that is longer than an `unsigned long` is refused. -/
theorem slamDecode_long {long' : Nat}
    (hv : value < 256 ^ long) (hm : m.Has ptr (field long value)) (hlen : long' < fieldBytes long value)
    (hlen8 : fieldBytes long value < 8) (fin : Nat) (err : Int) :
    slamDecode long' m ptr fin err = (0, ptr, -1) := by
  obtain ⟨hfirst, -⟩ := Store.has_cons.mp hm
  obtain ⟨hn, -⟩ := fieldLen_ofNat hlen8 (fieldTop_lt hv)
  simp only [slamDecode, hfirst, hn]
  rw [if_pos (by omega)]

theorem slamSkip_field (hv : value < 256 ^ long)
    (hm : m.Has ptr (field long value)) (hlen8 : fieldBytes long value < 8) {fin : Nat}
    (hfin : ptr + fieldBytes long value < fin) :
    slamSkip m ptr fin = some (ptr + fieldBytes long value) := by
  have hpos := fieldBytes_pos long value
  obtain ⟨hfirst, -⟩ := Store.has_cons.mp hm
  obtain ⟨hn, -⟩ := fieldLen_ofNat hlen8 (fieldTop_lt hv)
  simp only [slamSkip, hfirst, hn]
  rw [if_neg (by omega), if_neg (by omega), if_neg (by omega)]

/-! ## The round trip -/

/-- A 32-bit value takes at most five bytes. -/
theorem fieldBytes_lt_eight : fieldBytes 4 value < 8 := by
  have hvb : valueBytes 4 value ≤ 4 := by
    have := significant_le value 4
    unfold valueBytes; omega
  simp only [fieldBytes]
  split <;> omega

/-- **The round trip of a 32-bit value.** What `slam_encode` wrote is decoded and skipped as it was
    written if and only if the value has at most 29 bits. -/
theorem slamRoundTrip_iff (m m' : Store) (p q fin : Nat) (v : UInt32)
    (henc : slamEncode 4 m p fin v.toNat = some (q, m')) (fin' : Nat) (hfin : q < fin') (err : Int) :
    (slamDecode 4 m' p fin' err = (v.toNat, q, err) ∧ slamSkip m' p fin' = some q) ↔
      v.toNat < 2 ^ 29 := by
  have hv : v.toNat < 256 ^ 4 := v.toNat_lt
  rw [slamEncode_eq hv] at henc
  split at henc
  · obtain ⟨rfl, rfl⟩ := henc
    have hm : (m.splice p (field 4 v.toNat)).Has p (field 4 v.toNat) := Store.slice_splice_self ..
    rw [← fieldBytes_le_four hv]
    constructor
    · intro ⟨hdec, _⟩
      by_contra hlong
      rw [slamDecode_long hv hm (by omega) fieldBytes_lt_eight] at hdec
      simp only [Prod.mk.injEq] at hdec
      omega
    · intro hle
      refine ⟨?_, slamSkip_field hv hm fieldBytes_lt_eight hfin⟩
      rw [slamDecode_field hv hm hle fieldBytes_lt_eight, if_neg (by omega)]
  · cases henc

/-- The smallest value that is encoded but not decoded, in a buffer of six bytes. -/
theorem slamRoundTrip_fails :
    ∃ q m', slamEncode 4 (fun _ => 0) 0 6 (2 ^ 29) = some (q, m') ∧ q = 5 ∧
      slamDecode 4 m' 0 6 0 = (0, 0, -1) ∧ slamSkip m' 0 6 = some 5 := by
  refine ⟨_, _, rfl, ?_⟩
  decide

theorem slamRoundTrip_largest :
    ∃ q m', slamEncode 4 (fun _ => 0) 0 6 (2 ^ 29 - 1) = some (q, m') ∧ q = 4 ∧
      slamDecode 4 m' 0 6 0 = (2 ^ 29 - 1, q, 0) ∧ slamSkip m' 0 6 = some q := by
  refine ⟨_, _, rfl, rfl, ?_⟩
  exact (slamRoundTrip_iff (fun _ => 0) _ 0 _ 6 (2 ^ 29 - 1) rfl 6 (by decide) 0).mpr (by decide)

end Slam
