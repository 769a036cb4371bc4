import Mathlib.Tactic.Common
import Mathlib.Tactic.Ring

set_option autoImplicit false

/-! # Byte programs and their footprints

A `Prog α` is a program over a byte store: it reads and writes single bytes by index and ends in a
value of type `α`. `Prog.run` is its meaning, `Prog.touched` the list of indices it accesses on a
given store. The main result is `Prog.run_congr`: a program cannot depend on a byte it does not
touch, so two stores that agree on its footprint give the same value, the same footprint and stores
that still agree there. -/

/-- A byte store, indexed from the start of the buffer under consideration. -/
abbrev Store := Nat → UInt8

/-- The store with byte `i` replaced. -/
def Store.set (b : Store) (i : Nat) (v : UInt8) : Store := fun j => if j = i then v else b j

theorem Store.set_self (b : Store) (i : Nat) (v : UInt8) : b.set i v i = v := by
  simp [Store.set]

theorem Store.set_of_ne (b : Store) {i j : Nat} (v : UInt8) (h : j ≠ i) : b.set i v j = b j := by
  simp [Store.set, h]

theorem Store.set_eq_self {b : Store} {i : Nat} {v : UInt8} (h : b i = v) : b.set i v = b := by
  funext j
  by_cases hji : j = i
  · rw [hji, set_self, h]
  · rw [set_of_ne b v hji]

/-- Two stores agree on the indices in `S`. -/
def AgreeOn (S : Nat → Prop) (b b' : Store) : Prop := ∀ i, S i → b i = b' i

theorem AgreeOn.set {S : Nat → Prop} {b b' : Store} (h : AgreeOn S b b') (i : Nat) (v : UInt8) :
    AgreeOn S (b.set i v) (b'.set i v) := by
  intro j hj
  by_cases hji : j = i
  · subst hji; rw [Store.set_self, Store.set_self]
  · rw [Store.set_of_ne b v hji, Store.set_of_ne b' v hji, h j hj]

inductive Prog (α : Type) where
  | ret (a : α)
  | read (i : Nat) (k : UInt8 → Prog α)
  | write (i : Nat) (v : UInt8) (k : Prog α)

namespace Prog

open Store

variable {α β : Type}

def bind : Prog α → (α → Prog β) → Prog β
  | .ret a, f => f a
  | .read i k, f => .read i (fun v => (k v).bind f)
  | .write i v k, f => .write i v (k.bind f)

instance : Monad Prog where
  pure := .ret
  bind := .bind

/-- The value a program ends in and the store it leaves. -/
def run : Prog α → Store → α × Store
  | .ret a, b => (a, b)
  | .read i k, b => (k (b i)).run b
  | .write i v k, b => k.run (b.set i v)

/-- The indices a program reads or writes when started on the store `b`. -/
def touched : Prog α → Store → List Nat
  | .ret _, _ => []
  | .read i k, b => i :: (k (b i)).touched b
  | .write i v k, b => i :: k.touched (b.set i v)

@[simp] theorem run_pure (a : α) (b : Store) : (pure a : Prog α).run b = (a, b) := rfl

@[simp] theorem touched_pure (a : α) (b : Store) : (pure a : Prog α).touched b = [] := rfl

@[simp] theorem run_bind (p : Prog α) (f : α → Prog β) (b : Store) :
    (p >>= f).run b = (f (p.run b).1).run (p.run b).2 := by
  induction p generalizing b with
  | ret a => rfl
  | read i k ih => exact ih (b i) b
  | write i v k ih => exact ih (b.set i v)

@[simp] theorem touched_bind (p : Prog α) (f : α → Prog β) (b : Store) :
    (p >>= f).touched b = p.touched b ++ (f (p.run b).1).touched (p.run b).2 := by
  induction p generalizing b with
  | ret a => rfl
  | read i k ih => exact congrArg (List.cons i) (ih (b i) b)
  | write i v k ih => exact congrArg (List.cons i) (ih (b.set i v))

@[simp] theorem run_ite (c : Prop) [Decidable c] (p q : Prog α) (b : Store) :
    (if c then p else q).run b = if c then p.run b else q.run b := by
  split <;> rfl

/-! ## A program depends on its footprint only -/

/-- **Non-interference.** On two stores that agree wherever `p` looks, `p` ends in the same value,
    touches the same indices, and leaves stores that agree on the same set. -/
theorem run_congr (S : Nat → Prop) (p : Prog α) :
    ∀ (b b' : Store), AgreeOn S b b' → (∀ i ∈ p.touched b, S i) →
      (p.run b).1 = (p.run b').1 ∧ p.touched b = p.touched b' ∧ AgreeOn S (p.run b).2 (p.run b').2 := by
  induction p with
  | ret a => intro b b' h _; exact ⟨rfl, rfl, h⟩
  | read i k ih =>
    intro b b' h ht
    have hi : b i = b' i := h i (ht i (List.mem_cons_self ..))
    have hk : ∀ j ∈ (k (b i)).touched b, S j := fun j hj => ht j (List.mem_cons_of_mem _ hj)
    obtain ⟨hv, htd, ha⟩ := ih (b i) b b' h hk
    rw [hi] at hv htd ha
    refine ⟨?_, ?_, ?_⟩
    · show ((k (b i)).run b).1 = ((k (b' i)).run b').1
      rw [hi]; exact hv
    · show i :: (k (b i)).touched b = i :: (k (b' i)).touched b'
      rw [hi, htd]
    · show AgreeOn S ((k (b i)).run b).2 ((k (b' i)).run b').2
      rw [hi]; exact ha
  | write i v k ih =>
    intro b b' h ht
    have hk : ∀ j ∈ k.touched (b.set i v), S j := fun j hj => ht j (List.mem_cons_of_mem _ hj)
    obtain ⟨hv, htd, ha⟩ := ih (b.set i v) (b'.set i v) (h.set i v) hk
    exact ⟨hv, congrArg (List.cons i) htd, ha⟩

/-! ## Reading and writing runs of bytes -/

def readByte (i : Nat) : Prog UInt8 := .read i .ret

def writeByte (i : Nat) (v : UInt8) : Prog Unit := .write i v (.ret ())

@[simp] theorem run_readByte (i : Nat) (b : Store) : (readByte i).run b = (b i, b) := rfl

@[simp] theorem run_readByte_bind (i : Nat) (f : UInt8 → Prog β) (b : Store) :
    (readByte i >>= f).run b = (f (b i)).run b := rfl

@[simp] theorem touched_readByte (i : Nat) (b : Store) : (readByte i).touched b = [i] := rfl

@[simp] theorem run_writeByte (i : Nat) (v : UInt8) (b : Store) :
    (writeByte i v).run b = ((), b.set i v) := rfl

/-- Read `n` bytes from index `p` on. -/
def readBytes (p : Nat) : Nat → Prog (List UInt8)
  | 0 => pure []
  | n + 1 => do
      let bs ← readBytes p n
      let v ← readByte (p + n)
      pure (bs ++ [v])

/-- Write the bytes `bs` from index `p` on. -/
def writeBytes (p : Nat) : List UInt8 → Prog Unit
  | [] => pure ()
  | v :: vs => do
      writeByte p v
      writeBytes (p + 1) vs

end Prog

/-- The `n` bytes of a store from index `p` on. -/
def Store.slice (b : Store) (p n : Nat) : List UInt8 := (List.range n).map (fun k => b (p + k))

@[simp] theorem Store.length_slice (b : Store) (p n : Nat) : (b.slice p n).length = n := by
  simp [slice]

theorem Store.slice_succ (b : Store) (p n : Nat) : b.slice p (n + 1) = b.slice p n ++ [b (p + n)] := by
  simp [slice, List.range_succ]

theorem Store.slice_append (b : Store) (p m n : Nat) :
    b.slice p (m + n) = b.slice p m ++ b.slice (p + m) n := by
  induction n with
  | zero => simp [slice]
  | succ n ih =>
    rw [← Nat.add_assoc, slice_succ, ih, slice_succ, List.append_assoc, Nat.add_assoc]

theorem Store.drop_slice (b : Store) (p n k : Nat) : (b.slice p n).drop k = b.slice (p + k) (n - k) := by
  apply List.ext_getElem
  · simp
  · intro i h h'
    simp [slice, Nat.add_assoc]

variable {b : Store} {p k i : Nat} {bs : List UInt8}

theorem Store.slice_congr {b' : Store} {p' n : Nat} (h : ∀ k < n, b (p + k) = b' (p' + k)) :
    b.slice p n = b'.slice p' n := by
  apply List.map_congr_left
  intro k hk
  exact h k (List.mem_range.mp hk)

/-- The bytes `bs` stand in the store from index `p` on. -/
def Store.Has (b : Store) (p : Nat) (bs : List UInt8) : Prop := b.slice p bs.length = bs
  deriving Decidable

theorem Store.Has.get (h : b.Has p bs) (hk : k < bs.length) : b (p + k) = bs.get ⟨k, hk⟩ := by
  have hget : (b.slice p bs.length)[k]? = bs[k]? := congrArg (fun l => l[k]?) h
  simpa [slice, hk] using hget

theorem Store.has_append {xs ys : List UInt8} :
    b.Has p (xs ++ ys) ↔ b.Has p xs ∧ b.Has (p + xs.length) ys := by
  unfold Store.Has
  rw [List.length_append, slice_append]
  constructor
  · intro h
    exact List.append_inj h (by simp)
  · rintro ⟨hx, hy⟩
    rw [hx, hy]

theorem Store.has_cons {v : UInt8} {vs : List UInt8} : b.Has p (v :: vs) ↔ b p = v ∧ b.Has (p + 1) vs := by
  rw [← List.singleton_append, has_append]
  simp [Store.Has, slice]

/-- The store with the bytes `bs` written from index `p` on. -/
def Store.splice (b : Store) (p : Nat) (bs : List UInt8) : Store :=
  fun i => if h : p ≤ i ∧ i - p < bs.length then bs.get ⟨i - p, h.2⟩ else b i

section

variable (b : Store)

theorem Store.splice_nil (p : Nat) : b.splice p [] = b := by
  funext i; simp [splice]

theorem Store.splice_cons (p : Nat) (v : UInt8) (vs : List UInt8) :
    b.splice p (v :: vs) = (b.set p v).splice (p + 1) vs := by
  funext i
  unfold splice Store.set
  rcases Nat.lt_trichotomy i p with hlt | heq | hgt
  · have h1 : ¬ (p ≤ i ∧ i - p < (v :: vs).length) := by omega
    have h2 : ¬ (p + 1 ≤ i ∧ i - (p + 1) < vs.length) := by omega
    rw [dif_neg h1, dif_neg h2, if_neg (by omega)]
  · subst heq
    simp
  · have hidx : i - p = (i - (p + 1)) + 1 := by omega
    by_cases hin : i - (p + 1) < vs.length
    · have h1 : p ≤ i ∧ i - p < (v :: vs).length := by simp only [List.length_cons]; omega
      have h2 : p + 1 ≤ i ∧ i - (p + 1) < vs.length := ⟨hgt, hin⟩
      rw [dif_pos h1, dif_pos h2]
      simp [hidx]
    · have h1 : ¬ (p ≤ i ∧ i - p < (v :: vs).length) := by simp only [List.length_cons]; omega
      have h2 : ¬ (p + 1 ≤ i ∧ i - (p + 1) < vs.length) := by omega
      rw [dif_neg h1, dif_neg h2, if_neg (by omega)]

theorem Store.splice_of_lt (bs : List UInt8) (h : i < p) : b.splice p bs i = b i := by
  rw [splice, dif_neg (by omega)]

theorem Store.splice_of_ge (bs : List UInt8) (h : p + bs.length ≤ i) :
    b.splice p bs i = b i := by
  rw [splice, dif_neg (by omega)]

theorem Store.splice_add (p : Nat) (bs : List UInt8) (h : k < bs.length) :
    b.splice p bs (p + k) = bs.get ⟨k, h⟩ := by
  have hin : p ≤ p + k ∧ p + k - p < bs.length := by omega
  rw [splice, dif_pos hin]
  congr 2
  omega

theorem Store.splice_append (p : Nat) (xs ys : List UInt8) :
    (b.splice p xs).splice (p + xs.length) ys = b.splice p (xs ++ ys) := by
  induction xs generalizing b p with
  | nil => rw [splice_nil, List.length_nil, Nat.add_zero, List.nil_append]
  | cons x xs ih =>
    rw [List.cons_append, splice_cons, splice_cons, ← ih, List.length_cons,
      Nat.add_right_comm, Nat.add_assoc]

theorem Store.splice_splice_self (p : Nat) {xs ys : List UInt8}
    (h : xs.length = ys.length) : (b.splice p xs).splice p ys = b.splice p ys := by
  funext i
  unfold splice
  by_cases hin : p ≤ i ∧ i - p < ys.length
  · rw [dif_pos hin, dif_pos hin]
  · rw [dif_neg hin, dif_neg hin, dif_neg (h ▸ hin)]

theorem Store.slice_splice_of_disjoint {n q : Nat}
    (h : p + n ≤ q ∨ q + bs.length ≤ p) : (b.splice q bs).slice p n = b.slice p n := by
  apply slice_congr
  intro k hk
  rcases h with h | h
  · exact splice_of_lt _ _ (by omega)
  · exact splice_of_ge _ _ (by omega)

theorem Store.slice_splice_self (p : Nat) (bs : List UInt8) :
    (b.splice p bs).slice p bs.length = bs := by
  apply List.ext_getElem
  · simp
  · intro k h1 h2
    simp only [slice, List.getElem_map, List.getElem_range]
    exact splice_add b p bs h2

end

theorem Store.splice_self (h : b.Has p bs) : b.splice p bs = b := by
  funext i
  unfold splice
  split
  · next hin =>
    obtain ⟨k, rfl⟩ := Nat.exists_eq_add_of_le hin.1
    have hk : k < bs.length := by omega
    rw [h.get hk]
    congr 2
    omega
  · rfl

theorem Store.set_eq_splice (b : Store) (p : Nat) (v : UInt8) : b.set p v = b.splice p [v] := by
  rw [splice_cons, splice_nil]

theorem Store.Has.set (h : b.Has p bs) (v : UInt8)
    (hi : i < p ∨ p + bs.length ≤ i) : (b.set i v).Has p bs := by
  refine Eq.trans (slice_congr (fun k hk => ?_)) h
  exact set_of_ne _ _ (by omega)

theorem Store.splice_slice (b c : Store) (p q n : Nat) (h : k < n) :
    b.splice p (c.slice q n) (p + k) = c (q + k) := by
  have hin : p ≤ p + k ∧ p + k - p < (c.slice q n).length := by simp; omega
  rw [splice, dif_pos hin]
  simp [slice]

namespace Prog

variable {α β : Type}

@[simp] theorem run_readBytes (p n : Nat) (b : Store) : (readBytes p n).run b = (b.slice p n, b) := by
  induction n with
  | zero => rfl
  | succ n ih => simp [readBytes, ih, Store.slice_succ]

theorem mem_touched_readBytes {p n i : Nat} {b : Store} :
    i ∈ (readBytes p n).touched b ↔ p ≤ i ∧ i < p + n := by
  induction n with
  | zero => simp only [readBytes, touched_pure, List.not_mem_nil, false_iff]; omega
  | succ n ih =>
    simp only [readBytes, touched_bind, run_readBytes, run_readByte, touched_readByte, touched_pure,
      List.append_nil, List.mem_append, List.mem_singleton, ih]
    omega

@[simp] theorem run_writeBytes (p : Nat) (bs : List UInt8) (b : Store) :
    (writeBytes p bs).run b = ((), b.splice p bs) := by
  induction bs generalizing p b with
  | nil => simp [writeBytes, Store.splice_nil]
  | cons v vs ih => simp [writeBytes, ih, Store.splice_cons]

/-! ## Programs that stay inside the first bytes -/

/-- Started on `b`, the program touches indices below `n` only. -/
def Within (p : Prog α) (n : Nat) (b : Store) : Prop := ∀ i ∈ p.touched b, i < n

@[simp] theorem within_pure (a : α) (n : Nat) (b : Store) : (pure a : Prog α).Within n b := by
  simp [Within]

theorem within_bind (p : Prog α) (f : α → Prog β) (n : Nat) (b : Store) :
    (p >>= f).Within n b ↔ p.Within n b ∧ (f (p.run b).1).Within n (p.run b).2 := by
  simp only [Within, touched_bind, List.mem_append, or_imp, forall_and]

@[simp] theorem within_ite (c : Prop) [Decidable c] (p q : Prog α) (n : Nat) (b : Store) :
    (if c then p else q).Within n b ↔ if c then p.Within n b else q.Within n b := by
  split <;> exact Iff.rfl

/-- What a sequence does, once it is known what its first part does. -/
theorem run_bind_of {p : Prog α} {b b' : Store} {a : α} (h : p.run b = (a, b')) (f : α → Prog β) :
    (p >>= f).run b = (f a).run b' := by
  rw [run_bind, h]

theorem within_bind_of {p : Prog α} {b b' : Store} {a : α} (h : p.run b = (a, b'))
    (f : α → Prog β) (n : Nat) :
    (p >>= f).Within n b ↔ p.Within n b ∧ (f a).Within n b' := by
  rw [within_bind, h]

@[simp] theorem within_readByte {i n : Nat} {b : Store} : (readByte i).Within n b ↔ i < n := by
  simp [Within]

theorem within_readByte_bind {i n : Nat} {b : Store} (f : UInt8 → Prog β) :
    (readByte i >>= f).Within n b ↔ i < n ∧ (f (b i)).Within n b := by
  rw [within_bind_of (run_readByte i b), within_readByte]

theorem within_readBytes {p k n : Nat} {b : Store} : (readBytes p k).Within n b ↔ k = 0 ∨ p + k ≤ n := by
  simp only [Within, mem_touched_readBytes]
  constructor
  · intro h
    by_cases hk : k = 0
    · exact Or.inl hk
    · have := h (p + k - 1) (by omega)
      omega
  · intro h i hi
    omega

/-! ## The value and the footprint together -/

/-- Started on `b`, the program ends in `a` with the store `b'`, and stays below `n`. -/
structure Ends (p : Prog α) (n : Nat) (b : Store) (a : α) (b' : Store) : Prop where
  run : p.run b = (a, b')
  within : p.Within n b

/-- Started on `b`, the program does what `q` does on `b'`, and stays below `n` exactly if `q` does. -/
structure Leads (p : Prog α) (n : Nat) (b : Store) (q : Prog α) (b' : Store) : Prop where
  run : p.run b = q.run b'
  within : p.Within n b ↔ q.Within n b'

section Leads

variable {p q r : Prog α} {n : Nat} {b b' b'' : Store} {a : α}

theorem ends_pure (a : α) (n : Nat) (b : Store) : (pure a : Prog α).Ends n b a b := ⟨rfl, within_pure _ _ _⟩

theorem Ends.mono {m : Nat} (h : p.Ends m b a b') (hle : m ≤ n) : p.Ends n b a b' :=
  ⟨h.run, fun i hi => Nat.lt_of_lt_of_le (h.within i hi) hle⟩

theorem Ends.bind (h : p.Ends n b a b') (f : α → Prog β) : (p >>= f).Leads n b (f a) b' :=
  ⟨run_bind_of h.run f, (within_bind_of h.run f n).trans (and_iff_right h.within)⟩

theorem leads_readByte {i : Nat} (h : i < n) (f : UInt8 → Prog β) : (readByte i >>= f).Leads n b (f (b i)) b :=
  Ends.bind ⟨rfl, within_readByte.mpr h⟩ f

theorem Leads.trans (h : p.Leads n b q b') (h' : q.Leads n b' r b'') : p.Leads n b r b'' :=
  ⟨h.run.trans h'.run, h.within.trans h'.within⟩

theorem Leads.ends (h : p.Leads n b q b') (h' : q.Ends n b' a b'') : p.Ends n b a b'' :=
  ⟨h.run.trans h'.run, h.within.mpr h'.within⟩

end Leads

/-! ## Comparing bytes -/

/-- Compare with the bytes `cs`: the first byte that differs ends it. -/
def memcmp (p : Nat) : List UInt8 → Prog Bool
  | [] => pure true
  | c :: cs => do
      let v ← readByte p
      if v = c then memcmp (p + 1) cs else pure false

end Prog

/-- How many bytes a comparison with `cs` looks at. -/
def Store.compared (b : Store) (p : Nat) : List UInt8 → Nat
  | [] => 0
  | c :: cs => if b p = c then b.compared (p + 1) cs + 1 else 1

theorem Store.compared_pos (b : Store) (p : Nat) {cs : List UInt8} (hne : cs ≠ []) :
    0 < b.compared p cs := by
  cases cs with
  | nil => exact absurd rfl hne
  | cons c cs =>
    rw [compared]
    split <;> omega

theorem Store.compared_le (b : Store) (p : Nat) (cs : List UInt8) : b.compared p cs ≤ cs.length := by
  induction cs generalizing p with
  | nil => exact Nat.le_refl _
  | cons c cs ih =>
    have hrest := ih (p + 1)
    rw [compared, List.length_cons]
    split <;> omega

theorem Store.compared_of_has {b : Store} {p : Nat} {cs : List UInt8} (h : b.Has p cs) :
    b.compared p cs = cs.length := by
  induction cs generalizing p with
  | nil => rfl
  | cons c cs ih =>
    obtain ⟨hc, hcs⟩ := has_cons.mp h
    rw [compared, if_pos hc, ih hcs, List.length_cons]

namespace Prog

variable {α β : Type}

@[simp] theorem run_memcmp (p : Nat) (cs : List UInt8) (b : Store) :
    (memcmp p cs).run b = (decide (b.Has p cs), b) := by
  induction cs generalizing p with
  | nil => rfl
  | cons c cs ih =>
    rw [memcmp, run_readByte_bind, run_ite, ih]
    by_cases hc : b p = c <;> simp [hc, Store.has_cons]

theorem within_memcmp {p n : Nat} {cs : List UInt8} {b : Store} (hne : cs ≠ []) :
    (memcmp p cs).Within n b ↔ p + b.compared p cs ≤ n := by
  induction cs generalizing p with
  | nil => exact absurd rfl hne
  | cons c cs ih =>
    rw [memcmp, within_readByte_bind, within_ite, Store.compared]
    by_cases hc : b p = c
    · rw [if_pos hc, if_pos hc]
      cases cs with
      | nil => simp only [memcmp, within_pure, and_true, Store.compared]; omega
      | cons c' cs =>
        rw [ih (List.cons_ne_nil c' cs)]
        omega
    · rw [if_neg hc, if_neg hc]
      simp only [within_pure, and_true]
      omega

/-! ## The footprint and a condition on the value -/

section Meets

variable {p : Prog α} {n : Nat} {b b' : Store} {a : α} {cs : List UInt8} {x y : Prog α} {Q : α → Prop}

theorem run_memcmp_if (i : Nat) : (memcmp i cs >>= fun same => if same then x else y).run b =
    if b.Has i cs then x.run b else y.run b := by
  rw [run_bind_of (run_memcmp _ _ _), run_ite]
  simp only [decide_eq_true_eq]

theorem within_memcmp_if (hne : cs ≠ []) (i : Nat) :
    (memcmp i cs >>= fun same => if same then x else y).Within n b ↔
      i + b.compared i cs ≤ n ∧ if b.Has i cs then x.Within n b else y.Within n b := by
  rw [within_bind_of (run_memcmp _ _ _), within_memcmp hne, within_ite]
  simp only [decide_eq_true_eq]

/-- Started on `b`, the program stays below `n` and ends in a value with `Q`. -/
def Meets (p : Prog α) (n : Nat) (b : Store) (Q : α → Prop) : Prop := p.Within n b ∧ Q (p.run b).1

theorem meets_pure : (pure a : Prog α).Meets n b Q ↔ Q a := and_iff_right (within_pure _ _ _)

theorem meets_ite {c : Prop} [Decidable c] :
    (if c then x else y).Meets n b Q ↔ if c then x.Meets n b Q else y.Meets n b Q := by
  split <;> exact Iff.rfl

theorem meets_bind_of {f : α → Prog β} {Q : β → Prop} (h : p.run b = (a, b')) :
    (p >>= f).Meets n b Q ↔ p.Within n b ∧ (f a).Meets n b' Q := by
  rw [Meets, within_bind_of h, run_bind_of h, and_assoc, Meets]

theorem meets_readByte {f : UInt8 → Prog α} (i : Nat) :
    (readByte i >>= f).Meets n b Q ↔ i < n ∧ (f (b i)).Meets n b Q := by
  rw [meets_bind_of (run_readByte i b), within_readByte]

theorem meets_memcmp_if (hne : cs ≠ []) (i : Nat) :
    (memcmp i cs >>= fun same => if same then x else y).Meets n b Q ↔
      i + b.compared i cs ≤ n ∧ if b.Has i cs then x.Meets n b Q else y.Meets n b Q := by
  rw [meets_bind_of (run_memcmp _ _ _), within_memcmp hne, meets_ite]
  simp only [decide_eq_true_eq]

end Meets

/-- A program that stays inside the first `n` bytes cannot tell two stores apart that agree on
    them. -/
theorem Within.congr {p : Prog α} {n : Nat} {b b' : Store} (h : p.Within n b)
    (hagree : AgreeOn (· < n) b b') :
    (p.run b).1 = (p.run b').1 ∧ AgreeOn (· < n) (p.run b).2 (p.run b').2 := by
  obtain ⟨hv, -, hs⟩ := run_congr (· < n) p b b' hagree h
  exact ⟨hv, hs⟩

end Prog
