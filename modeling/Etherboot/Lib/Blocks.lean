import Mathlib.Tactic.Common
import Mathlib.Tactic.Ring

set_option autoImplicit false

/-! # Cutting data into blocks

`full n d` are the blocks of `n` elements that `d` has in full, and `rest n d` is what is left behind them. When
data comes in pieces that are never longer than the room in the last block, a piece fills the block
(`full_append_of_eq`, `rest_append_of_eq`) or is added to what is left (`full_append_of_lt`,
`rest_append_of_lt`). -/

namespace Blocks

variable {α : Type} {n : Nat} {d e : List α}

def full (n : Nat) (d : List α) : List (List α) :=
  (List.range (d.length / n)).map (fun i => (d.drop (n * i)).take n)

def rest (n : Nat) (d : List α) : List α := d.drop (n * (d.length / n))

theorem length_full : (full n d).length = d.length / n := by
  rw [full, List.length_map, List.length_range]

theorem length_rest : (rest n d).length = d.length % n := by
  rw [rest, List.length_drop]
  have := Nat.div_add_mod d.length n
  omega

theorem block_append {i : Nat} (h : i < d.length / n) :
    ((d ++ e).drop (n * i)).take n = (d.drop (n * i)).take n := by
  have hend : n * (i + 1) ≤ d.length :=
    (Nat.mul_le_mul_left n h).trans (Nat.mul_div_le d.length n)
  rw [Nat.mul_add, Nat.mul_one] at hend
  rw [List.drop_append_of_le_length (by omega), List.take_append_of_le_length]
  rw [List.length_drop]
  omega

theorem map_block_append :
    (List.range (d.length / n)).map (fun i => ((d ++ e).drop (n * i)).take n) = full n d :=
  List.map_congr_left fun _ hi => block_append (List.mem_range.mp hi)

theorem full_initial : full n d <+: full n (d ++ e) := by
  have hle : d.length / n ≤ (d ++ e).length / n :=
    Nat.div_le_div_right (by rw [List.length_append]; omega)
  obtain ⟨k, hk⟩ := Nat.exists_eq_add_of_le hle
  refine ⟨(List.range k).map (fun i => ((d ++ e).drop (n * (d.length / n + i))).take n), ?_⟩
  rw [full, full, hk, List.range_add, List.map_append, List.map_map]
  exact congrArg (· ++ _) map_block_append.symm

theorem div_append_of_lt (h : d.length % n + e.length < n) : (d ++ e).length / n = d.length / n := by
  have hlen : (d ++ e).length = n * (d.length / n) + (d.length % n + e.length) := by
    rw [List.length_append, ← Nat.add_assoc, Nat.div_add_mod]
  rw [hlen, Nat.mul_add_div (by omega), Nat.div_eq_of_lt h, Nat.add_zero]

theorem div_append_of_eq (hn : 0 < n) (h : d.length % n + e.length = n) :
    (d ++ e).length / n = d.length / n + 1 := by
  have hlen : (d ++ e).length = n * (d.length / n) + n := by
    rw [List.length_append, ← h, ← Nat.add_assoc, h, Nat.div_add_mod]
  rw [hlen, Nat.mul_add_div hn, Nat.div_self hn]

theorem drop_append_rest : (d ++ e).drop (n * (d.length / n)) = rest n d ++ e :=
  List.drop_append_of_le_length (Nat.mul_div_le d.length n)

theorem full_append_of_lt (h : d.length % n + e.length < n) : full n (d ++ e) = full n d := by
  rw [full, div_append_of_lt h, map_block_append]

theorem rest_append_of_lt (h : d.length % n + e.length < n) : rest n (d ++ e) = rest n d ++ e := by
  rw [rest, div_append_of_lt h, drop_append_rest]

theorem full_append_of_eq (hn : 0 < n) (h : d.length % n + e.length = n) :
    full n (d ++ e) = full n d ++ [rest n d ++ e] := by
  have hlen : (rest n d ++ e).length = n := by
    rw [List.length_append, length_rest, h]
  rw [full, div_append_of_eq hn h, List.range_succ, List.map_append, map_block_append, List.map_singleton,
    drop_append_rest, List.take_of_length_le (Nat.le_of_eq hlen)]

theorem rest_append_of_eq (hn : 0 < n) (h : d.length % n + e.length = n) : rest n (d ++ e) = [] := by
  refine List.drop_eq_nil_of_le ?_
  rw [div_append_of_eq hn h, Nat.mul_add, Nat.mul_one, List.length_append]
  have := Nat.div_add_mod d.length n
  omega

theorem flatten_full_append_rest : (full n d).flatten ++ rest n d = d := by
  have htake : ∀ k ≤ d.length / n,
      ((List.range k).map (fun i => (d.drop (n * i)).take n)).flatten = d.take (n * k) := by
    intro k
    induction k with
    | zero => exact fun _ => by simp
    | succ k ih =>
      intro hk
      rw [List.range_succ, List.map_append, List.flatten_append, ih (by omega), List.map_singleton,
        List.flatten_singleton, Nat.mul_add, Nat.mul_one, List.take_add]
  rw [full, htake _ (Nat.le_refl _), rest, List.take_append_drop]

end Blocks
