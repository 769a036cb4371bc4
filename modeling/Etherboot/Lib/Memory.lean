import Etherboot.Lib.Footprint

set_option autoImplicit false

/-! # A 32-bit address space and logs of copies into it

Addresses are natural numbers below `2^32`, and address arithmetic wraps there. `memcpy` is the
block copy of C, reading its source through a function. A `Copy` records one such call by its
destination, the position of its source in some input, and its length; `Copied log a x` says that a
call of the log put byte `x` of the input at address `a`. The memory after a log is determined by
this relation wherever the log does not contradict itself (`applyCopies_of_hit`), and is untouched
elsewhere (`applyCopies_of_miss`). -/

namespace Memory

/-- `a - b` on 32-bit words. -/
def wsub (a b : Nat) : Nat := (a + (2 ^ 32 - b % 2 ^ 32)) % 2 ^ 32

/-- How far address `a` lies behind `dst`, going upwards and around. -/
def above (dst a : Nat) : Nat := wsub a dst

variable {dst a x n p v : Nat} {m : Store} {f g : Nat → UInt8}

theorem wsub_lt (a b : Nat) : wsub a b < 2 ^ 32 := Nat.mod_lt _ (by decide)

theorem wsub_of_le {b : Nat} (h : b ≤ a) (ha : a < 2 ^ 32) : wsub a b = a - b := by
  unfold wsub; omega

theorem wsub_of_lt {b : Nat} (h : a < b) (hb : b < 2 ^ 32) : wsub a b = 2 ^ 32 - (b - a) := by
  unfold wsub; omega

theorem above_add {k : Nat} (hk : k < 2 ^ 32) : above dst ((dst + k) % 2 ^ 32) = k := by
  unfold above wsub; omega

theorem above_eq_sub (h : dst ≤ a) (ha : a < 2 ^ 32) : above dst a = a - dst := wsub_of_le h ha

theorem add_above (dst : Nat) (ha : a < 2 ^ 32) : (dst + above dst a) % 2 ^ 32 = a := by
  unfold above wsub; omega

theorem above_offset (base : Nat) {y : Nat} (h : x ≤ y) (hy : y < 2 ^ 32) :
    above ((base + x) % 2 ^ 32) ((base + y) % 2 ^ 32) = y - x := by
  unfold above wsub; omega

/-- The value of an `int` that is computed in 32 bits. -/
def int32 (x : Int) : Int := (x + 2 ^ 31) % 2 ^ 32 - 2 ^ 31

theorem int32_of_lt {x : Int} (h0 : -2 ^ 31 ≤ x) (h : x < 2 ^ 31) : int32 x = x := by
  unfold int32
  omega

/-- Copy `n` bytes, `f 0` to `f (n - 1)`, to `dst` and the addresses that follow. -/
def memcpy (m : Store) (dst : Nat) (f : Nat → UInt8) (n : Nat) : Store :=
  fun a => if above dst a < n then f (above dst a) else m a

/-- Fill `n` bytes from `dst` on. -/
def memset (m : Store) (dst : Nat) (v : UInt8) (n : Nat) : Store := memcpy m dst (fun _ => v) n

theorem memset_apply (m : Store) (dst : Nat) (v : UInt8) (n a : Nat) :
    memset m dst v n a = if above dst a < n then v else m a := rfl

theorem memset_outside (m : Store) (v : UInt8) (hfit : dst + n ≤ 2 ^ 32)
    (ha : a < 2 ^ 32) (h : a < dst ∨ dst + n ≤ a) : memset m dst v n a = m a := by
  rw [memset_apply, if_neg]
  unfold above wsub
  omega

theorem memcpy_congr (h : ∀ k < n, f k = g k) : memcpy m dst f n = memcpy m dst g n := by
  funext a
  unfold memcpy
  split
  · next hlt => exact h _ hlt
  · rfl

theorem memcpy_zero (m : Store) (dst : Nat) (f : Nat → UInt8) : memcpy m dst f 0 = m := by
  funext a
  rw [memcpy, if_neg (Nat.not_lt_zero _)]

theorem memcpy_memcpy (m : Store) (dst : Nat) (f : Nat → UInt8) {k : Nat} (h : n + k ≤ 2 ^ 32) :
    memcpy (memcpy m dst f n) ((dst + n) % 2 ^ 32) (fun i => f (n + i)) k = memcpy m dst f (n + k) := by
  funext a
  unfold memcpy
  by_cases hn : above dst a < n
  · have hbehind : above ((dst + n) % 2 ^ 32) a = above dst a + 2 ^ 32 - n := by
      unfold above wsub at hn ⊢
      omega
    rw [if_neg (by omega), if_pos hn, if_pos (by omega)]
  · have hbehind : above ((dst + n) % 2 ^ 32) a = above dst a - n := by
      unfold above wsub at hn ⊢
      omega
    simp only [hbehind, if_neg hn, Nat.add_sub_cancel' (Nat.le_of_not_lt hn)]
    by_cases hk : above dst a < n + k
    · rw [if_pos hk, if_pos (by omega)]
    · rw [if_neg hk, if_neg (by omega)]

/-! ## Logs of copies -/

structure Copy where
  dst : Nat
  src : Nat
  n : Nat
  deriving DecidableEq, Repr

/-- Some copy of the log put input byte `x` at address `a`. -/
def Copied (log : List Copy) (a x : Nat) : Prop :=
  ∃ c ∈ log, above c.dst a < c.n ∧ x = c.src + above c.dst a

theorem Copied.mono {log log' : List Copy} (h : Copied log a x)
    (hsub : ∀ c ∈ log, c ∈ log') : Copied log' a x := by
  obtain ⟨c, hc, hlt, hx⟩ := h
  exact ⟨c, hsub c hc, hlt, hx⟩

theorem copied_append {log log' : List Copy} :
    Copied (log ++ log') a x ↔ Copied log a x ∨ Copied log' a x := by
  simp only [Copied, List.mem_append, or_and_right, exists_or]

theorem copied_singleton {c : Copy} : Copied [c] a x ↔ above c.dst a < c.n ∧ x = c.src + above c.dst a := by
  simp [Copied]

/-- The memory after the copies of a log, whose sources are positions in the input `f`. -/
def applyCopies (f : Nat → UInt8) (log : List Copy) (m : Store) : Store :=
  log.foldl (fun m c => memcpy m c.dst (fun k => f (c.src + k)) c.n) m

theorem applyCopies_append (f : Nat → UInt8) (log log' : List Copy) (m : Store) :
    applyCopies f (log ++ log') m = applyCopies f log' (applyCopies f log m) := by
  simp [applyCopies]

theorem applyCopies_singleton (f : Nat → UInt8) (c : Copy) (m : Store) :
    applyCopies f [c] m = memcpy m c.dst (fun k => f (c.src + k)) c.n := rfl

theorem applyCopies_of_miss (f : Nat → UInt8) (log : List Copy) (m : Store) (a : Nat)
    (h : ∀ x, ¬ Copied log a x) : applyCopies f log m a = m a := by
  induction log generalizing m with
  | nil => rfl
  | cons c cs ih =>
    have hcs : ∀ x, ¬ Copied cs a x := fun x hx =>
      h x (hx.mono (fun c' hc' => List.mem_cons_of_mem _ hc'))
    have hc : ¬ above c.dst a < c.n := fun hlt =>
      h _ ⟨c, List.mem_cons_self .., hlt, rfl⟩
    show applyCopies f cs (memcpy m c.dst _ c.n) a = m a
    rw [ih _ hcs, memcpy, if_neg hc]

/-- Where every copy that reaches `a` brings the same byte, that byte is there in the end. -/
theorem applyCopies_of_hit (f : Nat → UInt8) (log : List Copy) (m : Store) (a : Nat) (v : UInt8)
    (hhit : ∃ x, Copied log a x) (hval : ∀ x, Copied log a x → f x = v) :
    applyCopies f log m a = v := by
  induction log generalizing m with
  | nil =>
    obtain ⟨x, c, hc, -⟩ := hhit
    cases hc
  | cons c cs ih =>
    have hcs : ∀ x, Copied cs a x → f x = v := fun x hx =>
      hval x (hx.mono (fun c' hc' => List.mem_cons_of_mem _ hc'))
    show applyCopies f cs (memcpy m c.dst _ c.n) a = v
    by_cases hrest : ∃ x, Copied cs a x
    · exact ih _ hrest hcs
    · -- only `c` itself reaches `a`
      rw [applyCopies_of_miss _ _ _ _ (fun x hx => hrest ⟨x, hx⟩)]
      obtain ⟨x, c', hc', hlt, hx⟩ := hhit
      rcases List.mem_cons.mp hc' with rfl | hmem
      · rw [memcpy, if_pos hlt]
        exact hval _ ⟨c', List.mem_cons_self .., hlt, rfl⟩
      · exact absurd ⟨x, c', hmem, hlt, hx⟩ hrest

/-! ## Multi-byte fields -/

def le16 (f : Nat → UInt8) (p : Nat) : Nat := (f p).toNat + 256 * (f (p + 1)).toNat

def le32 (f : Nat → UInt8) (p : Nat) : Nat := le16 f p + 65536 * le16 f (p + 2)

theorem le16_congr (h : ∀ k < 2, f (p + k) = g (p + k)) : le16 f p = le16 g p := by
  have h0 := h 0 (by decide)
  have h1 := h 1 (by decide)
  rw [Nat.add_zero] at h0
  rw [le16, le16, h0, h1]

theorem le32_lt (f : Nat → UInt8) (p : Nat) : le32 f p < 2 ^ 32 := by
  have h0 := (f p).toNat_lt
  have h1 := (f (p + 1)).toNat_lt
  have h2 := (f (p + 2)).toNat_lt
  have h3 := (f (p + 2 + 1)).toNat_lt
  unfold le32 le16
  omega

theorem le32_congr (h : ∀ k < 4, f (p + k) = g (p + k)) : le32 f p = le32 g p := by
  have hlo : le16 f p = le16 g p := le16_congr (fun k hk => h k (by omega))
  have hhi : le16 f (p + 2) = le16 g (p + 2) := le16_congr (fun k hk => by
    rw [Nat.add_assoc]
    exact h (2 + k) (by omega))
  rw [le32, le32, hlo, hhi]

/-- A big-endian field, as headers on the wire have them. -/
def be16 (f : Nat → UInt8) (p : Nat) : Nat := 256 * (f p).toNat + (f (p + 1)).toNat

theorem be16_lt (f : Nat → UInt8) (p : Nat) : be16 f p < 2 ^ 16 := by
  have h0 := (f p).toNat_lt
  have h1 := (f (p + 1)).toNat_lt
  unfold be16; omega

theorem be16_congr {q : Nat} (h : ∀ k < 2, f (p + k) = g (q + k)) : be16 f p = be16 g q := by
  have h0 := h 0 (by decide)
  have h1 := h 1 (by decide)
  simp only [Nat.add_zero] at h0
  rw [be16, be16, h0, h1]

def be32 (f : Nat → UInt8) (p : Nat) : Nat := 65536 * be16 f p + be16 f (p + 2)

/-- The bytes of a big-endian field. -/
def be16Bytes (v : Nat) : List UInt8 := [UInt8.ofNat (v / 256), UInt8.ofNat v]

def be32Bytes (v : Nat) : List UInt8 := be16Bytes (v / 65536) ++ be16Bytes v

/-- The bytes of a little-endian field. -/
def le16Bytes (v : Nat) : List UInt8 := [UInt8.ofNat v, UInt8.ofNat (v / 256)]

@[simp] theorem length_le16Bytes (v : Nat) : (le16Bytes v).length = 2 := rfl

def le32Bytes (v : Nat) : List UInt8 := le16Bytes v ++ le16Bytes (v / 65536)

@[simp] theorem length_le32Bytes (v : Nat) : (le32Bytes v).length = 4 := rfl

theorem le16Bytes_congr {w : Nat} (h : v % 65536 = w % 65536) : le16Bytes v = le16Bytes w := by
  have hlow : UInt8.ofNat v = UInt8.ofNat w := by
    apply UInt8.toNat_inj.mp
    rw [UInt8.toNat_ofNat', UInt8.toNat_ofNat']
    omega
  have hhigh : UInt8.ofNat (v / 256) = UInt8.ofNat (w / 256) := by
    apply UInt8.toNat_inj.mp
    rw [UInt8.toNat_ofNat', UInt8.toNat_ofNat']
    omega
  rw [le16Bytes, le16Bytes, hlow, hhigh]

theorem le16Bytes_le16 (f : Store) (p : Nat) : le16Bytes (le16 f p) = f.slice p 2 := by
  have hf := (f p).toNat_lt
  have hlow : UInt8.ofNat (le16 f p) = f p := by
    apply UInt8.toNat_inj.mp
    rw [UInt8.toNat_ofNat', le16]
    omega
  have hhigh : UInt8.ofNat (le16 f p / 256) = f (p + 1) := by
    have hf' := (f (p + 1)).toNat_lt
    apply UInt8.toNat_inj.mp
    rw [UInt8.toNat_ofNat', le16]
    omega
  rw [le16Bytes, hlow, hhigh]
  rfl

theorem le32Bytes_le32 (f : Store) (p : Nat) : le32Bytes (le32 f p) = f.slice p 4 := by
  have hlow : le16Bytes (le32 f p) = le16Bytes (le16 f p) :=
    le16Bytes_congr (by rw [le32]; omega)
  have hhigh : le16Bytes (le32 f p / 65536) = le16Bytes (le16 f (p + 2)) := by
    have hf := (f p).toNat_lt
    have hf' := (f (p + 1)).toNat_lt
    have hlt : le16 f p < 65536 := by rw [le16]; omega
    refine le16Bytes_congr ?_
    rw [le32]
    omega
  rw [le32Bytes, hlow, hhigh, le16Bytes_le16, le16Bytes_le16, ← Store.slice_append]

theorem le16_of_has (hv : v < 2 ^ 16) (h : m.Has p (le16Bytes v)) : le16 m p = v := by
  have hbytes : [m p, m (p + 1)] = le16Bytes v := h
  simp only [le16Bytes, List.cons.injEq] at hbytes
  obtain ⟨h0, h1, -⟩ := hbytes
  rw [le16, h0, h1]
  simp only [UInt8.toNat_ofNat']
  omega

theorem le32_of_has (hv : v < 2 ^ 32) (h : m.Has p (le32Bytes v)) : le32 m p = v := by
  have hbytes : [m p, m (p + 1), m (p + 2), m (p + 3)] = le32Bytes v := h
  simp only [le32Bytes, le16Bytes, List.cons_append, List.nil_append, List.cons.injEq] at hbytes
  obtain ⟨h0, h1, h2, h3, -⟩ := hbytes
  rw [le32, le16, le16, Nat.add_assoc p 2 1, h0, h1, h2, h3]
  simp only [UInt8.toNat_ofNat']
  omega

theorem be16_of_has (hv : v < 2 ^ 16) (h : m.Has p (be16Bytes v)) : be16 m p = v := by
  have hbytes : [m p, m (p + 1)] = be16Bytes v := h
  simp only [be16Bytes, List.cons.injEq] at hbytes
  obtain ⟨h0, h1, -⟩ := hbytes
  rw [be16, h0, h1]
  simp only [UInt8.toNat_ofNat']
  omega

theorem be32_of_has (hv : v < 2 ^ 32) (h : m.Has p (be32Bytes v)) : be32 m p = v := by
  obtain ⟨hhigh, hlow⟩ := Store.has_append.mp h
  have hhigh' := be16_of_has (v := v / 65536) (by omega) hhigh
  have hlow' : be16 m (p + 2) = v % 65536 := by
    refine be16_of_has (Nat.mod_lt _ (by decide)) ?_
    have hmod : be16Bytes (v % 65536) = be16Bytes v := by
      simp only [be16Bytes, List.cons.injEq, and_true]
      exact ⟨UInt8.toNat_inj.mp (by simp only [UInt8.toNat_ofNat']; omega),
        UInt8.toNat_inj.mp (by simp only [UInt8.toNat_ofNat']; omega)⟩
    rw [hmod]
    exact hlow
  rw [be32, hhigh', hlow']
  omega

theorem be32Bytes_inj {w : Nat} (hv : v < 2 ^ 32) (hw : w < 2 ^ 32) (h : be32Bytes v = be32Bytes w) :
    v = w := by
  have hread : be32 (Store.splice (fun _ => 0) 0 (be32Bytes v)) 0 = v :=
    be32_of_has hv (Store.slice_splice_self ..)
  rw [h, be32_of_has hw (Store.slice_splice_self ..)] at hread
  exact hread.symm

/-- The `n` low bytes of a value, the most significant one first. -/
def beBytes (v : Nat) : Nat → List UInt8
  | 0 => []
  | n + 1 => UInt8.ofNat (v / 256 ^ n) :: beBytes v n

@[simp] theorem length_beBytes (v n : Nat) : (beBytes v n).length = n := by
  induction n with
  | zero => rfl
  | succ n ih => simp [beBytes, ih]

/-- The number that the bytes `bs` continue when they are read behind `acc`. -/
def beValue (acc : Nat) (bs : List UInt8) : Nat := bs.foldl (fun a b => a * 256 + b.toNat) acc

theorem beValue_beBytes (acc v n : Nat) : beValue acc (beBytes v n) = acc * 256 ^ n + v % 256 ^ n := by
  induction n generalizing acc with
  | zero => simp [beBytes, beValue, Nat.mod_one]
  | succ n ih =>
    have hcons : beValue acc (beBytes v (n + 1)) =
        beValue (acc * 256 + v / 256 ^ n % 256) (beBytes v n) := by
      simp [beBytes, beValue]
    rw [hcons, ih, Nat.pow_succ, Nat.mod_mul]
    ring

theorem beValue_lt {acc : Nat} (bs : List UInt8) (h : acc < a) : beValue acc bs < a * 256 ^ bs.length := by
  induction bs generalizing acc a with
  | nil => simpa [beValue] using h
  | cons b bs ih =>
    have hb := b.toNat_lt
    have hstep : beValue (acc * 256 + b.toNat) bs < a * 256 * 256 ^ bs.length :=
      ih (by omega)
    rw [List.length_cons, Nat.pow_succ, Nat.mul_comm (256 ^ _), ← Nat.mul_assoc]
    exact hstep

end Memory
