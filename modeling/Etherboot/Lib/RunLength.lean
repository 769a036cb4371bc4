import Mathlib.Tactic.Common
import Mathlib.Tactic.Ring

set_option autoImplicit false

/-! # Run lengths

A list of bits is given by the lengths of its runs of true and false bits, in turn. `runs` computes
them as a scan does that puts out a run when the next one begins, so that a last bit has to be added
which differs from the one before. `replay` walks over the runs and lists the positions of every
other one. The two fit together (`replay_runs`), also when only the first runs are there
(`replay_take`). -/

namespace RunLength

/-- The lengths of the runs that come to an end, after `len` bits of the value `last`. -/
def runs (last : Bool) (len : Nat) : List Bool → List Nat
  | [] => []
  | b :: bs => if b = last then runs last (len + 1) bs else len :: runs b 1 bs

/-- The positions from `p` on that lie in the runs that are taken; `want` says whether the first one
    is. -/
def replay (want : Bool) (p : Nat) : List Nat → List Nat
  | [] => []
  | r :: rs => (if want then List.range' p r else []) ++ replay (!want) (p + r) rs

/-- The positions of the false bits, counted from `i`. -/
def gaps (i : Nat) : List Bool → List Nat
  | [] => []
  | b :: bs => if b then gaps (i + 1) bs else i :: gaps (i + 1) bs

theorem replay_append (want : Bool) (p : Nat) (rs rs' : List Nat) :
    ∃ want' p', replay want p (rs ++ rs') = replay want p rs ++ replay want' p' rs' := by
  induction rs generalizing want p with
  | nil => exact ⟨want, p, rfl⟩
  | cons r rs ih =>
    obtain ⟨want', p', h⟩ := ih (!want) (p + r)
    exact ⟨want', p', by simp only [List.cons_append, replay, h, List.append_assoc]⟩

theorem replay_take (want : Bool) (p k : Nat) (rs : List Nat) :
    replay want p (rs.take k) <+: replay want p rs := by
  obtain ⟨want', p', h⟩ := replay_append want p (rs.take k) (rs.drop k)
  rw [List.take_append_drop] at h
  rw [h]
  exact List.prefix_append ..

/-- **Run lengths are replayed as positions.** The runs of the bits, closed by a bit that differs
    from the last one, give the false bits' positions. -/
theorem replay_runs (last : Bool) (len p : Nat) (bs : List Bool) :
    replay (!last) p (runs last len (bs ++ [!bs.getLastD last])) =
      (if last then [] else List.range' p len) ++ gaps (p + len) bs := by
  induction bs generalizing last len p with
  | nil => cases last <;> simp [runs, replay, gaps]
  | cons b bs ih =>
    have hlast : (b :: bs).getLastD last = bs.getLastD b := by
      cases bs <;> simp [List.getLastD]
    rw [hlast, List.cons_append, runs]
    by_cases hb : b = last
    · -- the run goes on
      subst hb
      rw [if_pos rfl, ih b (len + 1) p]
      cases b with
      | true => simp [gaps, Nat.add_assoc]
      | false => simp [gaps, List.range'_concat, Nat.add_assoc]
    · -- a run has ended
      have hneg : (!last) = b := by cases b <;> cases last <;> simp_all
      rw [if_neg hb, replay, hneg, ih b 1 (p + len)]
      subst hneg
      cases last <;> simp [gaps]

theorem sum_runs_lt (last : Bool) (len : Nat) {bs : List Bool} (hne : bs ≠ []) :
    (runs last len bs).sum < len + bs.length := by
  induction bs generalizing last len with
  | nil => exact absurd rfl hne
  | cons b bs ih =>
    rw [runs, List.length_cons]
    by_cases hbs : bs = []
    · subst hbs
      split <;> simp [runs]
    · split
      · have := ih last (len + 1) hbs
        omega
      · have := ih b 1 hbs
        rw [List.sum_cons]
        omega

theorem runs_pos (last : Bool) {len : Nat} (hlen : 0 < len) (bs : List Bool) :
    ∀ r ∈ runs last len bs, 0 < r := by
  induction bs generalizing last len with
  | nil => simp [runs]
  | cons b bs ih =>
    rw [runs]
    split
    · exact ih last (Nat.succ_pos len)
    · exact List.forall_mem_cons.mpr ⟨hlen, ih b Nat.one_pos⟩

theorem runs_tail_pos (last : Bool) (len : Nat) (bs : List Bool) :
    ∀ r ∈ (runs last len bs).tail, 0 < r := by
  induction bs generalizing len with
  | nil => simp [runs]
  | cons b bs ih =>
    rw [runs]
    split
    · exact ih (len + 1)
    · exact runs_pos b Nat.one_pos bs

theorem gaps_map (f : Nat → Bool) (i n : Nat) :
    gaps i ((List.range' i n).map f) = (List.range' i n).filter (fun j => !f j) := by
  induction n generalizing i with
  | zero => rfl
  | succ n ih =>
    rw [List.range'_succ, List.map_cons, gaps, List.filter_cons, ih]
    cases f i <;> simp

end RunLength
