import Etherboot.Bootp.Decode

set_option autoImplicit false

/-! # The walk over the options

Without transfers in between, the bytes stay as they are. The decoder comes to an end after a bounded
number of steps, whatever the bytes are (`after_done`), so that `decode` is a function. -/

namespace Bootp

open Memory Prog Ctl

/-! ## Steps one after the other -/

namespace Ctl

def after (build : Build) (b : Store) : Nat → Ctl → Ctl
  | 0, c => c
  | n + 1, c => after build b n (c.next build b)

theorem after_add (build : Build) (b : Store) (m n : Nat) (c : Ctl) :
    c.after build b (m + n) = (c.after build b m).after build b n := by
  induction m generalizing c with
  | zero => rw [Nat.zero_add, after]
  | succ m ih => rw [Nat.succ_add, after, ih, after]

theorem next_of_done {build : Build} {b : Store} {c : Ctl} (h : c.phase = .done) : c.next build b = c := by
  rw [next, h]

theorem after_of_done {build : Build} {b : Store} {c : Ctl} (h : c.phase = .done) (n : Nat) :
    c.after build b n = c := by
  induction n with
  | zero => rfl
  | succ n ih => rw [after, next_of_done h, ih]

end Ctl

def Vars.after (build : Build) (b : Store) : Nat → Ctl → Vars → Vars
  | 0, _, v => v
  | n + 1, c, v => after build b n (c.next build b) (v.next build b c)

variable (build : Build) (b : Store)

theorem Vars.after_add (m n : Nat) (c : Ctl) (v : Vars) :
    v.after build b (m + n) c = (v.after build b m c).after build b n (c.after build b m) := by
  induction m generalizing c v with
  | zero => rw [Nat.zero_add, after, Ctl.after]
  | succ m ih => rw [Nat.succ_add, after, ih, after, Ctl.after]

theorem Vars.after_of_done {build : Build} {b : Store} {c : Ctl} (h : c.phase = .done) (n : Nat)
    (v : Vars) : v.after build b n c = v := by
  induction n with
  | zero => rfl
  | succ n ih =>
    have hnext : v.next build b c = v := by rw [Vars.next, h]
    rw [after, next_of_done h, hnext, ih]

/-- Steps of the decoder on bytes that stay as they are. -/
def Decoder.run (build : Build) (b : Store) : Nat → Decoder → Decoder
  | 0, d => d
  | n + 1, d => run build b n ((d.step build).run b).1

theorem Decoder.run_eq (n : Nat) (d : Decoder) :
    d.run build b n = ⟨d.ctl.after build b n, d.vars.after build b n d.ctl⟩ := by
  induction n generalizing d with
  | zero => rfl
  | succ n ih => rw [run, run_step, ih, after, Vars.after]

/-! ## The end of the walk -/

theorem Kind.of_encapsulated (c : UInt8) : Kind.of build true c ≠ .etherbootEncap := by
  intro h
  simp only [Kind.of, Bool.true_eq_false, false_and, and_false, if_false] at h
  split_ifs at h

/-- A bound for the steps that are left. -/
def Ctl.left (c : Ctl) : Nat :=
  match c.phase, c.outer with
  | .done, _ => 0
  | .returning, none => 1
  | .returning, some o => 300 * (o.endp - o.p - 1) + 3
  | .walk, none => 300 * (c.level.endp - c.level.p) + 2
  | .walk, some o => 300 * (o.endp - o.p - 1) + (c.level.endp - c.level.p) + 4

theorem Ctl.left_next {c : Ctl} (h : c.phase ≠ .done) :
    (c.next build b).left < c.left := by
  obtain ⟨⟨p, endp, extpath⟩, outer, phase⟩ := c
  cases phase with
  | done => exact absurd rfl h
  | returning =>
    cases outer with
    | none => exact Nat.zero_lt_one
    | some o =>
      simp only [Ctl.next, left]
      omega
  | walk =>
    have hlen := (b (p + 1)).toNat_lt
    simp only [Ctl.next]
    by_cases hlt : p < endp
    · rw [if_pos hlt]
      split
      · cases outer <;> simp only [left] <;> omega
      · split
        · cases outer <;> simp only [left] <;> omega
        · cases outer with
          | none =>
            simp only [pass]
            split <;> simp only [left] <;> omega
          | some o =>
            have hk : Kind.of build (encapsulated ⟨⟨p, endp, extpath⟩, some o, .walk⟩) (b p) ≠
                .etherbootEncap := Kind.of_encapsulated build (b p)
            rw [pass, if_neg hk]
            simp only [left]
            omega
    · rw [if_neg hlt]
      cases outer <;> simp only [left] <;> omega

theorem Ctl.after_done {n : Nat} {c : Ctl} (h : c.left ≤ n) :
    (c.after build b n).phase = .done := by
  induction n generalizing c with
  | zero =>
    by_contra hne
    have := c.left_next build b hne
    omega
  | succ n ih =>
    rw [after]
    by_cases hdone : c.phase = .done
    · rw [next_of_done hdone, after_of_done hdone, hdone]
    · have := c.left_next build b hdone
      exact ih (by omega)

/-- The walk over a reply begins here. -/
def Ctl.first : Ctl := ⟨⟨vendOffset + 4, vendOffset + 4 + (312 + 924), none⟩, none, .walk⟩

/-- More steps than any walk over a reply takes. -/
def maxSteps : Nat := 300 * (312 + 924) + 2

theorem Ctl.first_done : (first.after build b maxSteps).phase = .done :=
  after_done build b (Nat.le_refl _)

/-- `decode_rfc1533` on a reply, if no block of an extension file arrives. -/
def decode (v : Vars) : Vars :=
  (((Decoder.start v).run b).1.run build b maxSteps).vars

end Bootp
