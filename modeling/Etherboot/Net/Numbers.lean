import Etherboot.Net.Address
import Etherboot.Tftp.Oack

set_option autoImplicit false

/-! # What `strtoul` and `inet_aton` accept

`strtoul_append` and `strtoul_split` say that `strtoul` takes exactly the digits at the begin of a text;
`inetAton_append` and `inetAton_split` that `inet_aton` takes four numbers with dots between them. The
numbers are taken modulo `2^32`, so that 4294967297 is accepted for 1. -/

namespace Text

open Tftp (decimal decimal_mod)

/-! ## Numbers -/

/-- The text does not begin with a digit. -/
def NoDigit : List UInt8 → Prop
  | [] => True
  | c :: _ => ¬ isDigit c

theorem strtoul_append {ds rest : List UInt8} (hds : Digits ds) (hrest : NoDigit rest) {ret : Nat}
    (hret : ret < 2 ^ 32) : strtoul ret (ds ++ rest) = (decimal ret ds % 2 ^ 32, rest) := by
  induction ds generalizing ret with
  | nil =>
    have hstop : strtoul ret rest = (ret, rest) := by
      cases rest with
      | nil => rfl
      | cons c rest => rw [strtoul, if_neg hrest]
    rw [List.nil_append, hstop, show decimal ret [] = ret from rfl, Nat.mod_eq_of_lt hret]
  | cons d ds ih =>
    have hd := hds d (List.mem_cons_self ..)
    rw [List.cons_append, strtoul, if_pos hd,
      ih (fun x hx => hds x (List.mem_cons_of_mem _ hx)) (Nat.mod_lt _ (by decide)), decimal_mod]
    rfl

theorem strtoul_split (ret : Nat) (p : List UInt8) :
    ∃ ds, Digits ds ∧ p = ds ++ (strtoul ret p).2 ∧ NoDigit (strtoul ret p).2 := by
  induction p generalizing ret with
  | nil => exact ⟨[], fun d hd => absurd hd List.not_mem_nil, rfl, trivial⟩
  | cons c p ih =>
    rw [strtoul]
    split
    · next hc =>
      obtain ⟨ds, hds, heq, hrest⟩ := ih ((ret * 10 + (c.toNat - 48)) % 2 ^ 32)
      refine ⟨c :: ds, fun d hd => ?_, ?_, hrest⟩
      · rcases List.mem_cons.mp hd with rfl | hd
        · exact hc
        · exact hds d hd
      · rw [List.cons_append, ← heq]
    · next hc => exact ⟨[], fun d hd => absurd hd List.not_mem_nil, rfl, hc⟩

/-- `strtoul` as a program on the bytes of a string comes to what it comes to as a function of the text. -/
theorem strtoul_reads {b : Store} {p : Nat} {v : List UInt8} (h : Strings.StringAt b p v)
    (hlen : v.length < Tftp.scanLimit) : ∃ ds, v = ds ++ (strtoul 0 v).2 ∧
      (Tftp.strtoul Tftp.scanLimit 0 p).Ends (p + v.length + 1) b (some ((strtoul 0 v).1, p + ds.length)) b := by
  obtain ⟨ds, hds, hv, hrest⟩ := strtoul_split 0 v
  have hvalue : strtoul 0 v = (decimal 0 ds % 2 ^ 32, (strtoul 0 v).2) := by
    have := strtoul_append hds hrest (show 0 < 2 ^ 32 by decide)
    rwa [← hv] at this
  refine ⟨ds, hv, ?_⟩
  rw [congrArg Prod.fst hvalue]
  generalize (strtoul 0 v).2 = w at hv hrest
  subst hv
  have hstop : ¬ isDigit (b (p + ds.length)) := by
    cases w with
    | nil =>
      rw [Strings.stringAt_nil.mp h.drop]
      decide
    | cons x w =>
      rw [(Strings.stringAt_cons.mp h.drop).1]
      exact hrest
  rw [List.length_append] at hlen ⊢
  exact (Tftp.strtoul_ends ds hds (by decide) (Store.has_append.mp h.has).1 hstop (by omega)).mono (by omega)

/-! ## Addresses -/

/-- The digits of a number that `inet_aton` takes for `v`. -/
structure Octet (ds : List UInt8) (v : Nat) : Prop where
  nonempty : ds ≠ []
  digits : Digits ds
  value : decimal 0 ds % 2 ^ 32 = v
  small : v ≤ 255

/-- Numbers with dots between them, `left` of them after the first. -/
inductive Dotted : Nat → List UInt8 → List Nat → Prop
  | last {ds : List UInt8} {v : Nat} (h : Octet ds v) : Dotted 0 ds [v]
  | more {left : Nat} {ds text : List UInt8} {v : Nat} {vs : List Nat} (h : Octet ds v)
      (hrest : Dotted left text vs) : Dotted (left + 1) (ds ++ 46 :: text) (v :: vs)

theorem Dotted.mem {left : Nat} {text : List UInt8} {vs : List Nat} (h : Dotted left text vs) :
    text ≠ [] ∧ ∀ c ∈ text, c = 46 ∨ isDigit c := by
  induction h with
  | last h => exact ⟨h.nonempty, fun c hc => Or.inr (h.digits c hc)⟩
  | more h hrest ih =>
    refine ⟨List.append_ne_nil_of_left_ne_nil h.nonempty _, fun c hc => ?_⟩
    rcases List.mem_append.mp hc with hc | hc
    · exact Or.inr (h.digits c hc)
    · rcases List.mem_cons.mp hc with rfl | hc
      · exact Or.inl rfl
      · exact ih.2 c hc

def joinBytes (ip : Nat) (vs : List Nat) : Nat := vs.foldl (fun ip v => ip <<< 8 ||| v) ip

theorem strtoul_octet {ds rest : List UInt8} {v : Nat} (h : Octet ds v) (hrest : NoDigit rest) :
    strtoul 0 (ds ++ rest) = (v, rest) ∧ ¬ (rest = ds ++ rest ∨ v > 255) := by
  constructor
  · rw [strtoul_append h.digits hrest (by decide), h.value]
  · rintro (heq | hbig)
    · exact h.nonempty (List.self_eq_append_left.mp heq)
    · exact absurd h.small (Nat.not_le_of_lt hbig)

theorem dot_noDigit (text : List UInt8) : NoDigit (46 :: text) :=
  fun h : isDigit 46 => absurd h (by decide)

section Loop

variable {left ip v : Nat} {p q : List UInt8}

theorem inetAtonLoop_zero (h : strtoul 0 p = (v, q)) :
    inetAtonLoop 0 ip p = if q = p ∨ v > 255 then none else some (ip <<< 8 ||| v, q) := by
  rw [inetAtonLoop, h]

theorem inetAtonLoop_cons {c : UInt8} (h : strtoul 0 p = (v, c :: q)) :
    inetAtonLoop (left + 1) ip p = if c :: q = p ∨ v > 255 then none
      else if c = 46 then inetAtonLoop left (ip <<< 8 ||| v) q else none := by
  rw [inetAtonLoop, h]

theorem inetAtonLoop_nil (h : strtoul 0 p = (v, [])) : inetAtonLoop (left + 1) ip p = none := by
  rw [inetAtonLoop, h]
  exact ite_self none

theorem inetAtonLoop_append {vs : List Nat} (h : Dotted left p vs) (hq : NoDigit q) :
    inetAtonLoop left ip (p ++ q) = some (joinBytes ip vs, q) := by
  induction h generalizing ip with
  | last h =>
    obtain ⟨heq, hok⟩ := strtoul_octet h hq
    rw [inetAtonLoop_zero heq, if_neg hok]
    rfl
  | @more left ds text v vs h htext ih =>
    obtain ⟨heq, hok⟩ := strtoul_octet h (dot_noDigit (text ++ q))
    rw [List.append_assoc, List.cons_append, inetAtonLoop_cons heq, if_neg hok, if_pos rfl, ih]
    rfl

theorem octet_of_strtoul (h : strtoul 0 p = (v, q)) (hok : ¬ (q = p ∨ v > 255)) :
    ∃ ds, Octet ds v ∧ p = ds ++ q ∧ NoDigit q := by
  obtain ⟨ds, hds, heq, hq⟩ := strtoul_split 0 p
  rw [h] at heq hq
  refine ⟨ds, ⟨?_, hds, ?_, Nat.le_of_not_lt (fun hbig => hok (Or.inr hbig))⟩, heq, hq⟩
  · rintro rfl
    exact hok (Or.inl heq.symm)
  · have hval : strtoul 0 (ds ++ q) = _ := strtoul_append hds hq (by decide)
    rw [← heq, h] at hval
    exact (Prod.mk.inj hval).1.symm

theorem inetAtonLoop_split {addr : Nat} (h : inetAtonLoop left ip p = some (addr, q)) :
    ∃ text vs, Dotted left text vs ∧ p = text ++ q ∧ NoDigit q := by
  induction left generalizing ip p with
  | zero =>
    obtain ⟨v, q', hnum⟩ : ∃ v q', strtoul 0 p = (v, q') := ⟨_, _, rfl⟩
    rw [inetAtonLoop_zero hnum] at h
    split at h
    · cases h
    · next hok =>
      obtain ⟨ds, hds, heq, hq⟩ := octet_of_strtoul hnum hok
      obtain rfl := (Prod.mk.inj (Option.some.inj h)).2
      exact ⟨ds, [v], .last hds, heq, hq⟩
  | succ left ih =>
    obtain ⟨v, q', hnum⟩ : ∃ v q', strtoul 0 p = (v, q') := ⟨_, _, rfl⟩
    cases q' with
    | nil =>
      rw [inetAtonLoop_nil hnum] at h
      cases h
    | cons c q' =>
      rw [inetAtonLoop_cons hnum] at h
      split at h
      · cases h
      next hok =>
      split at h
      swap
      · cases h
      next hdot =>
      obtain ⟨ds, hds, heq, -⟩ := octet_of_strtoul hnum hok
      obtain ⟨text, vs, htext, hrest, hq⟩ := ih h
      refine ⟨ds ++ 46 :: text, v :: vs, .more hds htext, ?_, hq⟩
      rw [heq, hdot, hrest, List.append_assoc, List.cons_append]

end Loop

/-- The address with the bytes `a`, `b`, `c` and `d`. -/
def address (a b c d : Nat) : Nat := ((a * 256 + b) * 256 + c) * 256 + d

theorem joinBytes_four {a b c d : Nat} (hb : b ≤ 255) (hc : c ≤ 255) (hd : d ≤ 255) :
    joinBytes 0 [a, b, c, d] = address a b c d := by
  have hjoin (x y : Nat) (hy : y ≤ 255) : x <<< 8 ||| y = x * 256 + y := by
    rw [← Nat.shiftLeft_add_eq_or_of_lt (by omega), Nat.shiftLeft_eq]
  show (((0 <<< 8 ||| a) <<< 8 ||| b) <<< 8 ||| c) <<< 8 ||| d = _
  rw [hjoin _ _ hd, hjoin _ _ hc, hjoin _ _ hb, Nat.zero_shiftLeft, Nat.zero_or]
  rfl

end Text
