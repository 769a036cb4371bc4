import Etherboot.Lib.Strings
import Etherboot.Tftp.Client

set_option autoImplicit false

/-! # Reading an option acknowledgement

The scan looks at strings: whether one is `blksize` (`isBlksize_string`), what number one begins with
(`strtoul_string`), where one ends (`skipString_string`).

`Oack b opts` says that `opts` is the option list by which a server grants the block size `b`: the
option name in any case, a zero, the number in decimal digits, a zero. `oackBlksize_granted` says that
the client reads it as meant, provided it gets to the end: behind the number the scan skips one string
too many, and on an option list of one option that string lies behind the packet. -/

namespace Tftp

open Memory Prog Strings Store
open Text (isDigit Digits)

/-- The number with the digits `ds` behind the digits of `ret`. -/
def decimal (ret : Nat) (ds : List UInt8) : Nat := ds.foldl (fun r c => r * 10 + (c.toNat - 48)) ret

/-- The option list that grants the block size `b`. -/
def Oack (b : Nat) (opts : List UInt8) : Prop :=
  ∃ name digits, opts = name ++ 0 :: (digits ++ [0]) ∧ name.map upcase = blksizeText.map upcase ∧
    (∀ d ∈ digits, isDigit d) ∧ decimal 0 digits = b ∧ opts.length ≤ defaultsizePacket

theorem decimal_lt (ds : List UInt8) (h : ∀ d ∈ ds, isDigit d) :
    ∀ ret, decimal ret ds < (ret + 1) * 10 ^ ds.length := by
  induction ds with
  | nil => intro ret; simp [decimal]
  | cons d ds ih =>
    intro ret
    have hd := h d (List.mem_cons_self ..)
    have hrest := ih (fun x hx => h x (List.mem_cons_of_mem _ hx)) (ret * 10 + (d.toNat - 48))
    have hstep : ret * 10 + (d.toNat - 48) + 1 ≤ (ret + 1) * 10 := by
      have := hd.2
      omega
    calc decimal ret (d :: ds) = decimal (ret * 10 + (d.toNat - 48)) ds := rfl
      _ < (ret * 10 + (d.toNat - 48) + 1) * 10 ^ ds.length := hrest
      _ ≤ (ret + 1) * 10 * 10 ^ ds.length := Nat.mul_le_mul_right _ hstep
      _ = (ret + 1) * 10 ^ (d :: ds).length := by rw [List.length_cons, Nat.pow_succ', Nat.mul_assoc]

theorem decimal_mod (ds : List UInt8) (ret : Nat) :
    decimal (ret % 2 ^ 32) ds % 2 ^ 32 = decimal ret ds % 2 ^ 32 := by
  induction ds generalizing ret with
  | nil => simp [decimal]
  | cons d ds ih =>
    show decimal (ret % 2 ^ 32 * 10 + (d.toNat - 48)) ds % 2 ^ 32
      = decimal (ret * 10 + (d.toNat - 48)) ds % 2 ^ 32
    rw [← ih (ret % 2 ^ 32 * 10 + _), ← ih (ret * 10 + _)]
    congr 2
    omega

/-- `strtoul` reads the digits up to the first byte that is none. -/
theorem strtoul_ends (ds : List UInt8) (hds : ∀ d ∈ ds, isDigit d) {b : Store} {fuel : Nat} :
    ∀ {ret p : Nat}, ret < 2 ^ 32 → b.Has p ds → ¬ isDigit (b (p + ds.length)) → ds.length < fuel →
      (strtoul fuel ret p).Ends (p + ds.length + 1) b (some (decimal ret ds % 2 ^ 32, p + ds.length)) b := by
  induction ds generalizing fuel with
  | nil =>
    intro ret p hret _ hend hfuel
    obtain ⟨fuel, rfl⟩ := Nat.exists_eq_succ_of_ne_zero (Nat.ne_of_gt hfuel)
    refine (leads_readByte (Nat.lt_succ_self _) _).ends ?_
    rw [if_neg (show ¬ isDigit (b p) from hend), decimal, List.foldl_nil, Nat.mod_eq_of_lt hret]
    exact ends_pure _ _ _
  | cons d ds ih =>
    intro ret p hret hhas hend hfuel
    obtain ⟨fuel, rfl⟩ := Nat.exists_eq_succ_of_ne_zero (Nat.ne_zero_of_lt hfuel)
    obtain ⟨hd, hrest⟩ := has_cons.mp hhas
    obtain ⟨hdigit, hds⟩ := List.forall_mem_cons.mp hds
    rw [add_length_cons] at hend ⊢
    refine (leads_readByte (by omega) _).ends ?_
    rw [hd, if_pos hdigit]
    have := ih hds (Nat.mod_lt (ret * 10 + (d.toNat - 48)) (by decide)) hrest hend (Nat.lt_of_succ_lt_succ hfuel)
    rwa [decimal_mod] at this

theorem upcase_blksizeText : ∀ c ∈ blksizeText, upcase c ≠ 0 := by
  simp only [blksizeText, List.forall_mem_cons, List.not_mem_nil, false_imp_iff, implies_true, and_true]
  decide

/-! ## Strings -/

/-- The string is `blksize`, in any case. -/
def IsBlksize (s : List UInt8) : Prop := s.map upcase = blksizeText.map upcase
  deriving Decidable

/-- The digits that a text begins with. -/
def leading (v : List UInt8) : List UInt8 := v.takeWhile fun c => decide (isDigit c)

/-- The number that a text begins with. -/
def number (v : List UInt8) : Nat := decimal 0 (leading v)

section Strings

variable {b : Store}

/-- `strcasecmp(text, s) == 0`: behind the text there is the end of the string, or a blank. -/
def sameText : List UInt8 → List UInt8 → Bool
  | [], [] => true
  | [], c :: _ => decide (upcase c = 0)
  | _ :: _, [] => false
  | a :: text, c :: s => decide (upcase a = upcase c) && sameText text s

theorem strcasecmp_string (text : List UInt8) (htext : ∀ c ∈ text, upcase c ≠ 0) :
    ∀ {s : List UInt8} {p : Nat}, StringAt b p s →
      (strcasecmp text p).Ends (p + s.length + 1) b (sameText text s) b := by
  induction text with
  | nil =>
    intro s p h
    refine (leads_readByte (by omega) _).ends ?_
    cases s with
    | nil =>
      rw [stringAt_nil.mp h]
      exact ends_pure _ _ _
    | cons c s =>
      rw [(stringAt_cons.mp h).1]
      exact ends_pure _ _ _
  | cons a text ih =>
    intro s p h
    obtain ⟨ha, htext⟩ := List.forall_mem_cons.mp htext
    refine (leads_readByte (by omega) _).ends ?_
    cases s with
    | nil =>
      rw [stringAt_nil.mp h, if_neg (fun h => h.1 rfl), decide_eq_false (show ¬ upcase a = upcase 0 from ha)]
      exact ends_pure _ _ _
    | cons c s =>
      obtain ⟨hc, hc0, hs⟩ := stringAt_cons.mp h
      rw [hc, sameText, add_length_cons]
      by_cases hsame : upcase a = upcase c
      · rw [if_pos ⟨hc0, hsame⟩, decide_eq_true hsame, Bool.true_and]
        exact ih htext hs
      · rw [if_neg (fun h => hsame h.2), decide_eq_false hsame, Bool.false_and]
        exact ends_pure _ _ _

/-- The text is all of a string if it is as long. -/
theorem sameText_iff (text : List UInt8) : ∀ {s : List UInt8},
    (sameText text s = true → text.length ≤ s.length) ∧
      (sameText text s = true ∧ s.length = text.length ↔ s.map upcase = text.map upcase) := by
  induction text with
  | nil =>
    intro s
    cases s <;> simp [sameText]
  | cons a text ih =>
    intro s
    cases s with
    | nil => simp [sameText]
    | cons c s =>
      obtain ⟨hle, hiff⟩ := @ih s
      rw [sameText, Bool.and_eq_true, decide_eq_true_eq, List.map_cons, List.map_cons, List.cons.injEq, ← hiff,
        @eq_comm _ (upcase c)]
      simp only [List.length_cons, Nat.add_right_cancel_iff, Nat.add_le_add_iff_right, and_assoc]
      exact ⟨fun h => hle h.2, trivial⟩

variable {s v : List UInt8} {p : Nat}

theorem zero_not_mem_of_upcase {text : List UInt8} (h : s.map upcase = text.map upcase)
    (htext : ∀ c ∈ text, upcase c ≠ 0) : 0 ∉ s := by
  intro hzero
  have hmem : upcase 0 ∈ text.map upcase := h ▸ List.mem_map_of_mem hzero
  obtain ⟨c, hc, heq⟩ := List.mem_map.mp hmem
  exact htext c hc (heq.trans (by decide))

theorem isBlksize_string (h : StringAt b p s) :
    (isBlksize p).Ends (p + s.length + 1) b (decide (IsBlksize s)) b := by
  obtain ⟨hle, hiff⟩ := @sameText_iff blksizeText s
  refine ((strcasecmp_string blksizeText upcase_blksizeText h).bind _).ends ?_
  cases hsame : sameText blksizeText s with
  | false =>
    have hno : ¬ IsBlksize s := fun h => by cases (hsame.symm.trans (hiff.mpr h).1)
    rw [if_neg (by decide), decide_eq_false hno]
    exact ends_pure _ _ _
  | true =>
    have hlong : 7 ≤ s.length := hle hsame
    have hseventh : b (p + 7) = 0 ↔ IsBlksize s := (h.null_iff hlong).trans ((and_iff_right hsame).symm.trans hiff)
    rw [if_pos rfl, ← decide_eq_decide.mpr hseventh]
    exact (leads_readByte (by omega) _).ends (ends_pure _ _ _)

theorem skipString_string {s : List UInt8} {fuel p : Nat} (h : StringAt b p s) (hfuel : s.length < fuel) :
    (skipString fuel p).Ends (p + s.length + 1) b (some (p + s.length + 1)) b :=
  h.skip_ends skipString some (fun _ _ => rfl) hfuel

/-- A text is its leading digits, and then nothing or a character that is no digit. -/
theorem leading_cases (v : List UInt8) :
    (Digits v ∧ leading v = v) ∨ (¬ Digits v ∧ ∃ c r, v = leading v ++ c :: r ∧ ¬ isDigit c) := by
  induction v with
  | nil => exact Or.inl ⟨by simp [Digits], rfl⟩
  | cons d v ih =>
    by_cases hd : isDigit d
    · have hlead : leading (d :: v) = d :: leading v := by
        rw [leading, List.takeWhile_cons, if_pos (decide_eq_true hd), leading]
      rw [hlead]
      rcases ih with ⟨hall, heq⟩ | ⟨hnot, c, r, heq, hc⟩
      · refine Or.inl ⟨?_, by rw [heq]⟩
        rw [Digits, List.forall_mem_cons]
        exact ⟨hd, hall⟩
      · refine Or.inr ⟨fun h => hnot fun x hx => h x (List.mem_cons_of_mem _ hx), c, r, ?_, hc⟩
        rw [List.cons_append, ← heq]
    · refine Or.inr ⟨fun h => hd (h d (List.mem_cons_self ..)), d, v, ?_, hd⟩
      rw [leading, List.takeWhile_cons, if_neg (by simp [hd]), List.nil_append]

theorem leading_eq_self (hv : Digits v) : leading v = v := by
  obtain ⟨-, hlead⟩ | ⟨hnot, -⟩ := leading_cases v
  · exact hlead
  · exact absurd hv hnot

theorem leading_digits (v : List UInt8) : ∀ d ∈ leading v, isDigit d := by
  intro d hd
  exact of_decide_eq_true (List.all_eq_true.mp List.all_takeWhile d hd)

/-- The number at the front of a text is read, and nothing behind the text is looked at. -/
theorem strtoul_string (h : StringAt b p v) (hlen : v.length < scanLimit) :
    (strtoul scanLimit 0 p).Ends (p + v.length + 1) b
      (some (number v % 2 ^ 32, p + (leading v).length)) b := by
  have hfront : b.Has p (leading v) ∧ ¬ isDigit (b (p + (leading v).length)) ∧
      (leading v).length ≤ v.length := by
    rcases leading_cases v with ⟨-, heq⟩ | ⟨-, c, r, heq, hc⟩
    · rw [heq, h.null]
      exact ⟨h.has, by decide, le_rfl⟩
    · have hhas := h.has
      rw [heq] at hhas
      obtain ⟨hlead, hrest⟩ := has_append.mp hhas
      rw [(has_cons.mp hrest).1]
      exact ⟨hlead, hc, (List.takeWhile_sublist _).length_le⟩
  obtain ⟨hlead, hstop, hle⟩ := hfront
  exact (strtoul_ends _ (leading_digits v) (by decide) hlead hstop (by omega)).mono (by omega)

theorem oackOption_other (hs : ¬ IsBlksize s) (h : StringAt b p s) (old : Int) :
    (oackOption old p).Ends (p + s.length + 1) b (some (old, p)) b := by
  refine ((isBlksize_string h).bind _).ends ?_
  rw [decide_eq_false hs, if_neg (by decide)]
  exact ends_pure _ _ _

theorem length_isBlksize (hs : IsBlksize s) : s.length = 7 := by
  simpa [blksizeText] using congrArg List.length hs

/-- Behind the name, the text is taken, and the character behind its digits is passed. -/
theorem oackOption_taken (hs : IsBlksize s) (h : StringAt b p s) (hv : StringAt b (p + s.length + 1) v)
    (hlen : v.length < scanLimit) (old : Int) :
    (oackOption old p).Ends (p + s.length + 1 + v.length + 1) b
      (some (toInt (number v % 2 ^ 32), p + s.length + 1 + (leading v).length + 1)) b := by
  refine (((isBlksize_string h).mono (by omega)).bind _).ends ?_
  have hnum := strtoul_string hv hlen
  rw [length_isBlksize hs] at hnum ⊢
  rw [decide_eq_true hs, if_pos rfl]
  exact (hnum.bind _).ends (ends_pure _ _ _)

end Strings

/-- A string that is skipped has at least its final zero. -/
theorem run_skipString (fuel : Nat) :
    ∀ (p : Nat) (b : Store), ((skipString fuel p).run b).2 = b ∧
      ∀ q, ((skipString fuel p).run b).1 = some q → p < q := by
  induction fuel with
  | zero => intro p b; exact ⟨rfl, fun q h => absurd h (by simp [skipString])⟩
  | succ fuel ih =>
    intro p b
    simp only [skipString, run_readByte_bind]
    split
    · exact ⟨rfl, fun q h => Nat.lt_of_succ_le (Nat.le_of_eq (Option.some.inj h))⟩
    · obtain ⟨hb, hq⟩ := ih (p + 1) b
      exact ⟨hb, fun q h => Nat.lt_of_succ_lt (hq q h)⟩

theorem run_skipString_zero {p : Nat} {b : Store} (h : b p = 0) :
    (skipString scanLimit p).run b = (some (p + 1), b) := by
  obtain ⟨fuel, hfuel⟩ : ∃ fuel, scanLimit = fuel + 1 := ⟨2 ^ 32 - 1, rfl⟩
  rw [hfuel]
  simp only [skipString, run_readByte_bind, h, if_true, run_pure]

section Granted

variable {b : Nat} {opts : List UInt8} {body : Store}

/-- The option read from a granting list: the number, and the index behind the list. -/
theorem run_oackOption (hopts : Oack b opts) (hb : b < 2 ^ 31) (hbody : body.Has 2 opts) (old : Int) :
    (oackOption old 2).run body = (some ((b : Int), 2 + opts.length), body) := by
  obtain ⟨name, digits, rfl, hname, hdigits, rfl, hlen⟩ := hopts
  obtain ⟨hnamebody, hrest⟩ := has_append.mp hbody
  obtain ⟨hzero, hrest⟩ := has_cons.mp hrest
  obtain ⟨hdigitbody, hend⟩ := has_append.mp hrest
  obtain ⟨hfinal, -⟩ := has_cons.mp hend
  have hlimit : digits.length < scanLimit := by
    simp only [List.length_append, List.length_cons, defaultsizePacket] at hlen
    unfold scanLimit
    omega
  have hrun := (oackOption_taken hname ⟨zero_not_mem_of_upcase hname upcase_blksizeText, hnamebody, hzero⟩
    ⟨fun h => absurd (hdigits 0 h) (by decide), hdigitbody, hfinal⟩ hlimit old).run
  have hleading : leading digits = digits := leading_eq_self hdigits
  have hint : toInt (number digits % 2 ^ 32) = decimal 0 digits := by
    rw [number, hleading, Nat.mod_eq_of_lt (by omega), toInt, if_pos hb]
  have hlength : 2 + (name ++ 0 :: (digits ++ [0])).length = 2 + name.length + 1 + digits.length + 1 := by
    simp only [List.length_append, List.length_cons, List.length_nil]
    omega
  rw [hrun, hint, hleading, hlength]

/-- **A granted block size is read.** The scan ends with the number granted, or not at all. -/
theorem oackBlksize_granted (hopts : Oack b opts) (hlo : 10 ≤ b) (hb : b < 2 ^ 31)
    (hbody : body.Has 2 opts) (old : Int) :
    ((oackBlksize true opts.length old).run body).1 =
      (((skipString scanLimit (2 + opts.length)).run body).1).map (fun _ => (b : Int)) := by
  have hoption := run_oackOption hopts hb hbody
  obtain ⟨name, digits, heq, hname, hdigits, hval, hlen⟩ := hopts
  have hseven : name.length = 7 := by
    have := congrArg List.length hname
    simpa [blksizeText] using this
  have htotal : opts.length = 9 + digits.length := by
    rw [heq]
    simp only [List.length_append, List.length_cons, List.length_nil, hseven]
    omega
  have htwo : 2 ≤ digits.length := by
    by_contra hshort
    have hlt := decimal_lt digits hdigits 0
    have : 10 ^ digits.length ≤ 10 ^ 1 := Nat.pow_le_pow_right (by decide) (by omega)
    omega
  -- the last byte of the packet is zero as it is
  have hlast : body (opts.length + 1) = 0 := by
    rw [heq] at hbody
    obtain ⟨-, hrest⟩ := has_append.mp hbody
    obtain ⟨-, hrest⟩ := has_cons.mp hrest
    obtain ⟨-, hend⟩ := has_append.mp hrest
    obtain ⟨hfinal, -⟩ := has_cons.mp hend
    rw [htotal, ← hfinal, hseven]
    congr 1
    omega
  obtain ⟨fuel, hfuel⟩ : ∃ fuel, scanLimit = fuel + 1 + 1 := ⟨2 ^ 32 - 2, rfl⟩
  simp only [oackBlksize, run_bind, run_writeByte, set_eq_self hlast, run_ite, true_and]
  rw [if_pos (by simp only [maxPacket, defaultsizePacket] at *; omega)]
  nth_rewrite 1 [hfuel]
  simp only [oackLoop, run_ite]
  rw [if_pos (by omega)]
  simp only [run_bind, hoption]
  obtain ⟨hkeep, hbehind⟩ := run_skipString scanLimit (2 + opts.length) body
  cases hskip : ((skipString scanLimit (2 + opts.length)).run body).1 with
  | none => simp
  | some q =>
    have := hbehind q hskip
    simp only [run_ite]
    rw [if_neg (by omega)]
    simp

end Granted

end Tftp
