import Etherboot.Lib.Footprint

set_option autoImplicit false

/-! # Programs that write one run of bytes

A program that fills a buffer from a position on and returns the position behind is known by the bytes it
writes (`Emits`). Such programs compose by appending their bytes (`Emits.bind`), and whether one stays
inside a buffer is a matter of their number (`Emits.within`). -/

namespace Prog

variable {p n : Nat} {b : Store} {bs cs : List UInt8}

theorem mem_touched_writeBytes {i : Nat} : i ∈ (writeBytes p bs).touched b ↔ p ≤ i ∧ i < p + bs.length := by
  induction bs generalizing p b with
  | nil =>
    simp only [writeBytes, touched_pure, List.not_mem_nil, false_iff, List.length_nil]
    omega
  | cons v vs ih =>
    have hcons : i ∈ (writeBytes p (v :: vs)).touched b ↔
        i = p ∨ i ∈ (writeBytes (p + 1) vs).touched (b.set p v) := List.mem_cons
    rw [hcons, ih, List.length_cons]
    omega

/-- The program writes the bytes `bs` from `p` on and nothing else, and returns the position behind. -/
structure Emits (w : Prog Nat) (p : Nat) (bs : List UInt8) : Prop where
  run : ∀ b, w.run b = (p + bs.length, b.splice p bs)
  touched : ∀ b i, i ∈ w.touched b ↔ p ≤ i ∧ i < p + bs.length

theorem emits_pure (p : Nat) : Emits (pure p) p [] where
  run b := by rw [run_pure, Store.splice_nil, List.length_nil, Nat.add_zero]
  touched b i := by
    simp only [touched_pure, List.not_mem_nil, false_iff, List.length_nil]
    omega

theorem Emits.bind {w : Prog Nat} {f : Nat → Prog Nat} (hw : Emits w p bs)
    (hf : Emits (f (p + bs.length)) (p + bs.length) cs) : Emits (w >>= f) p (bs ++ cs) where
  run b := by rw [run_bind_of (hw.run b), hf.run, Store.splice_append, List.length_append, Nat.add_assoc]
  touched b i := by
    rw [touched_bind, hw.run, List.mem_append, hw.touched, hf.touched, List.length_append]
    omega

theorem Emits.within {w : Prog Nat} (h : Emits w p bs) (hne : bs ≠ []) :
    w.Within n b ↔ p + bs.length ≤ n := by
  have hpos := List.length_pos_iff.mpr hne
  simp only [Within, h.touched]
  constructor
  · intro hin
    have hlast := hin (p + bs.length - 1) (by omega)
    omega
  · intro hle i hi
    omega

/-- Write the bytes `bs` and go behind them. -/
def emit (p : Nat) (bs : List UInt8) : Prog Nat := do
  writeBytes p bs
  pure (p + bs.length)

theorem emits_emit (p : Nat) (bs : List UInt8) : Emits (emit p bs) p bs where
  run b := by rw [emit, run_bind_of (run_writeBytes p bs b), run_pure]
  touched b i := by
    rw [emit, touched_bind, run_writeBytes, touched_pure, List.append_nil, mem_touched_writeBytes]

theorem within_writeBytes : (writeBytes p bs).Within n b ↔ bs = [] ∨ p + bs.length ≤ n := by
  simp only [Within, mem_touched_writeBytes]
  constructor
  · intro h
    by_cases hnil : bs = []
    · exact Or.inl hnil
    · have hpos := List.length_pos_iff.mpr hnil
      have hlast := h (p + bs.length - 1) (by omega)
      exact Or.inr (by omega)
  · rintro (rfl | hle) i hi
    · simp only [List.length_nil] at hi
      omega
    · omega

@[simp] theorem within_writeByte {i : Nat} {v : UInt8} : (writeByte i v).Within n b ↔ i < n :=
  List.forall_mem_singleton

end Prog
