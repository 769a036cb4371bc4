import Etherboot.Lib.Footprint

set_option autoImplicit false

/-! # Strings one behind the other

A run of strings, each ended by a null. A place in the run is given by what is left: the rest of the
string that the place is in, and the strings behind it. `next` moves a place by one byte, across a null
if need be, and `At` says that a store holds what is left from an index on, up to the index `e`. -/

namespace Strings

/-- The bytes of the strings. -/
def joined (c : List (List UInt8)) : List UInt8 := c.flatMap (fun s => s ++ [0])

/-- The place one byte on. -/
def next : List (List UInt8) → List (List UInt8)
  | [] => []
  | [] :: c => c
  | (_ :: s) :: c => s :: c

/-- The place `k` bytes on. -/
def skip : Nat → List (List UInt8) → List (List UInt8)
  | 0, c => c
  | k + 1, c => skip k (next c)

@[simp] theorem joined_nil : joined [] = [] := rfl

@[simp] theorem joined_cons (s : List UInt8) (c : List (List UInt8)) :
    joined (s :: c) = s ++ 0 :: joined c := by
  simp [joined]

theorem joined_next (c : List (List UInt8)) : joined (next c) = (joined c).drop 1 := by
  rcases c with _ | ⟨_ | ⟨a, s⟩, c⟩
  · rfl
  · simp [next]
  · simp [next]

theorem skip_cons {k : Nat} {s : List UInt8} (c : List (List UInt8)) (hk : s.length = k) :
    skip (k + 1) (s :: c) = c := by
  induction k generalizing s with
  | zero =>
    obtain rfl := List.length_eq_zero_iff.mp hk
    rfl
  | succ k ih =>
    cases s with
    | nil => cases hk
    | cons a s => exact ih (Nat.succ.inj hk)

variable {b : Store} {e p : Nat} {c : List (List UInt8)} {s : List UInt8}

/-- A string with its null stands at `p`. -/
structure StringAt (b : Store) (p : Nat) (s : List UInt8) : Prop where
  noNull : 0 ∉ s
  has : b.Has p s
  null : b (p + s.length) = 0

theorem stringAt_nil : StringAt b p [] ↔ b p = 0 := ⟨fun h => h.null, fun h => ⟨by simp, rfl, h⟩⟩

theorem add_length_cons (a : UInt8) : p + (a :: s).length = p + 1 + s.length := by
  rw [List.length_cons]
  omega

theorem stringAt_cons {a : UInt8} : StringAt b p (a :: s) ↔ b p = a ∧ a ≠ 0 ∧ StringAt b (p + 1) s := by
  constructor
  · rintro ⟨hzero, hhas, hnull⟩
    obtain ⟨ha, hs⟩ := Store.has_cons.mp hhas
    rw [add_length_cons] at hnull
    rw [List.mem_cons, not_or] at hzero
    exact ⟨ha, Ne.symm hzero.1, hzero.2, hs, hnull⟩
  · rintro ⟨ha, hne, hzero, hs, hnull⟩
    rw [← add_length_cons a] at hnull
    exact ⟨by simp [hne.symm, hzero], Store.has_cons.mpr ⟨ha, hs⟩, hnull⟩

theorem StringAt.drop {u : List UInt8} (h : StringAt b p (u ++ s)) : StringAt b (p + u.length) s := by
  obtain ⟨hzero, hhas, hnull⟩ := h
  rw [List.length_append, ← Nat.add_assoc] at hnull
  exact ⟨fun hz => hzero (List.mem_append_right _ hz), (Store.has_append.mp hhas).2, hnull⟩

theorem StringAt.skip_ends {α : Type} (scan : Nat → Nat → Prog α) (result : Nat → α)
    (hscan : ∀ n p, scan (n + 1) p = Prog.readByte p >>= fun c =>
      if c = 0 then pure (result (p + 1)) else scan n (p + 1)) (h : StringAt b p s) {n : Nat}
    (hn : s.length < n) : (scan n p).Ends (p + s.length + 1) b (result (p + s.length + 1)) b := by
  induction s generalizing n p with
  | nil =>
    obtain ⟨n, rfl⟩ := Nat.exists_eq_succ_of_ne_zero (Nat.ne_of_gt hn)
    rw [hscan]
    refine (Prog.leads_readByte (Nat.lt_succ_self _) _).ends ?_
    rw [if_pos (stringAt_nil.mp h)]
    exact Prog.ends_pure _ _ _
  | cons c s ih =>
    obtain ⟨n, rfl⟩ := Nat.exists_eq_succ_of_ne_zero (Nat.ne_zero_of_lt hn)
    obtain ⟨hc, hc0, hs⟩ := stringAt_cons.mp h
    rw [add_length_cons, hscan]
    refine (Prog.leads_readByte (by omega) _).ends ?_
    rw [hc, if_neg hc0]
    exact ih hs (Nat.lt_of_succ_lt_succ hn)

theorem StringAt.null_iff {k : Nat} (h : StringAt b p s) (hk : k ≤ s.length) :
    b (p + k) = 0 ↔ s.length = k := by
  constructor
  · intro hnull
    by_contra hne
    rw [h.has.get (by omega)] at hnull
    exact h.noNull (hnull ▸ List.get_mem ..)
  · rintro rfl
    exact h.null

/-- From the index `p` on, up to `e`, the store holds what is left at a place. -/
structure At (b : Store) (e p : Nat) (c : List (List UInt8)) : Prop where
  has : b.Has p (joined c)
  last : p + (joined c).length = e
  noNull : ∀ s ∈ c, 0 ∉ s

theorem At.end_of_nil (h : At b e p []) : p = e := h.last

theorem At.string (h : At b e p (s :: c)) :
    StringAt b p s ∧ p + s.length < e ∧ At b e (p + s.length + 1) c := by
  obtain ⟨hhas, hlast, hnull⟩ := h
  rw [joined_cons] at hhas hlast
  obtain ⟨hs, hrest⟩ := Store.has_append.mp hhas
  obtain ⟨hzero, hrest⟩ := Store.has_cons.mp hrest
  rw [List.length_append, List.length_cons] at hlast
  exact ⟨⟨hnull s (List.mem_cons_self ..), hs, hzero⟩, by omega, hrest, by omega,
    fun t ht => hnull t (List.mem_cons_of_mem _ ht)⟩

theorem At.append {u : List UInt8} (h : At b e p ((u ++ s) :: c)) : At b e (p + u.length) (s :: c) := by
  obtain ⟨hhas, hlast, hnull⟩ := h
  rw [joined_cons, List.append_assoc, ← joined_cons] at hhas hlast
  rw [List.length_append] at hlast
  refine ⟨(Store.has_append.mp hhas).2, by omega, fun t ht => ?_⟩
  rcases List.mem_cons.mp ht with rfl | ht
  · exact fun hz => hnull _ (List.mem_cons_self ..) (List.mem_append_right _ hz)
  · exact hnull t (List.mem_cons_of_mem _ ht)

theorem At.next (h : At b e p c) (hc : c ≠ []) : At b e (p + 1) (next c) := by
  rcases c with _ | ⟨_ | ⟨a, s⟩, c⟩
  · exact absurd rfl hc
  · exact h.string.2.2
  · exact At.append (u := [a]) h

theorem At.skip {k : Nat} (h : At b e p c) (hk : k ≤ (joined c).length) : At b e (p + k) (skip k c) := by
  induction k generalizing p c with
  | zero => exact h
  | succ k ih =>
    have hc : c ≠ [] := by
      rintro rfl
      cases hk
    have hlen : k ≤ (joined (Strings.next c)).length := by
      rw [joined_next, List.length_drop]
      omega
    have := ih (h.next hc) hlen
    rwa [Nat.add_assoc, Nat.add_comm 1] at this

end Strings
