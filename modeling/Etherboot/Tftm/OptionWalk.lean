import Etherboot.Lib.Strings
import Etherboot.Net.Numbers
import Etherboot.Tftm.Options

set_option autoImplicit false

/-! # The walk over the options of an acknowledgement

The payload of an option acknowledgement is a run of strings, names and values in turn. `look` says
what `opt_get_multicast` does at a place of the run: it ends there, takes an option and goes on behind
it, runs out of the payload, or meets an option that it does not know and looks at it for ever. Names
and values are found by counting bytes, so a place need not be one where an option begins.

`optGetMulticast_confined_iff` has the payloads on which the function returns and looks at nothing
else. At the end of the payload the loop looks at the byte behind it, before it asks whether the end
has come, so these are the payloads on which it ends earlier. -/

namespace Tftm

open Memory Prog Strings
open Tftp (strcasecmp sameText strtoul scanLimit upcase decimal)

/-! ## What stands at a place -/

/-- The option's name without its null. -/
def multicastName : List UInt8 := multicastText.dropLast

/-- What is left of a string behind the address that it begins with, if it does. -/
def afterAddress (v : List UInt8) : List UInt8 := ((Text.inetAton v).map Prod.snd).getD v

/-- What is left of a string behind the digits that it begins with. -/
def afterNumber (v : List UInt8) : List UInt8 := (Text.strtoul 0 v).2

/-- The number that a string begins with. -/
def numberOf (v : List UInt8) : Nat := (Text.strtoul 0 v).1

/-- What the loop does at a place. An option may depend on those before it. -/
inductive Look where
  | stop
  | option (opt : Options → Opt) (rest : List (List UInt8))
  | outside
  | unknown

/-- The value of `tsize`. -/
def lookTsize : List (List UInt8) → Look
  | [] => .outside
  | v :: rest => .option (fun _ => .tsize (numberOf v)) rest

/-- The value of `blksize`: another size than the one asked for ends the walk. -/
def lookBlksize : List (List UInt8) → Look
  | [] => .outside
  | v :: rest => if numberOf v = minPacket then .option (fun _ => .blksize) rest else .stop

/-- The third field of `multicast`, the first ones being known. -/
def lookMaster (ip : Option Nat) (port : Nat) : List (List UInt8) → Look
  | [] => .outside
  | x :: rest =>
    .option (fun o => .multicast (ip.getD o.multicastIp) (port % 2 ^ 16) (decide (x.head? = some 49))) rest

/-- The second field and the third one. -/
def lookPort (ip : Option Nat) : List (List UInt8) → Look
  | [] => .outside
  | w :: rest => lookMaster ip (numberOf w) (next (afterNumber w :: rest))

/-- The value of `multicast`. -/
def lookMulticast : List (List UInt8) → Look
  | [] => .outside
  | v :: rest => lookPort ((Text.inetAton v).map Prod.fst) (next (afterAddress v :: rest))

def look : List (List UInt8) → Look
  | [] => .outside
  | [] :: _ => .stop
  | (a :: s) :: c =>
    if sameText tsizeText (a :: s) then lookTsize (skip 6 ((a :: s) :: c))
    else if sameText Tftp.blksizeText (a :: s) then lookBlksize (skip 8 ((a :: s) :: c))
    else if a :: s = multicastName then lookMulticast c
    else .unknown

/-- The walk comes to a place where it ends, over options that it knows. -/
inductive EndsInside : List (List UInt8) → Prop where
  | stop {c : List (List UInt8)} (h : look c = .stop) : EndsInside c
  | option {c rest : List (List UInt8)} {opt : Options → Opt} (h : look c = .option opt rest)
      (hrest : EndsInside rest) : EndsInside c

/-! ## Reading strings -/

section Read

variable {b : Store} {e p : Nat} {s : List UInt8} {c : List (List UInt8)}

theorem strcasecmp_at {text : List UInt8} (htext : ∀ c ∈ text, upcase c ≠ 0) (h : At b e p (s :: c)) :
    (strcasecmp text p).Ends e b (sameText text s) b := by
  obtain ⟨hs, hlt, -⟩ := h.string
  exact (Tftp.strcasecmp_string text htext hs).mono hlt

variable {v : List UInt8}

theorem strtoul_at (h : At b e p (v :: c)) (hlen : v.length < scanLimit) :
    ∃ q, (strtoul scanLimit 0 p).Ends e b (some (numberOf v, q)) b ∧ At b e q (afterNumber v :: c) ∧ p ≤ q ∧
      (q = p ↔ afterNumber v = v) := by
  obtain ⟨hs, hlt, -⟩ := h.string
  obtain ⟨ds, hv, hends⟩ := Text.strtoul_reads hs hlen
  rw [hv] at h
  refine ⟨p + ds.length, hends.mono hlt, h.append, Nat.le_add_right _ _, ?_⟩
  have hsame : afterNumber v = v ↔ ds = [] := by
    conv_lhs => rhs; rw [hv]
    exact List.self_eq_append_left
  rw [hsame, ← List.length_eq_zero_iff]
  omega

theorem skipValue_at (h : At b e p (s :: c)) :
    ∃ q, (skipValue (e - p) p).Ends e b q b ∧ At b e q c ∧ p < q := by
  obtain ⟨hs, hlt, hrest⟩ := h.string
  have hskip : (skipValue (e - p) p).Ends (p + s.length + 1) b (p + s.length + 1) b :=
    hs.skip_ends skipValue id (fun _ _ => rfl) (by omega)
  exact ⟨_, hskip.mono hlt, hrest, by omega⟩

theorem octet_at (h : At b e p (v :: c)) (hlen : v.length < scanLimit) :
    ∃ q, (octet p).Ends e b
        (some (if afterNumber v = v ∨ numberOf v > 255 then none else some (numberOf v, q))) b ∧
      At b e q (afterNumber v :: c) ∧ p ≤ q := by
  obtain ⟨q, hnum, hat, hle, hiff⟩ := strtoul_at h hlen
  refine ⟨q, (hnum.bind _).ends ?_, hat, hle⟩
  simp only [hiff]
  split <;> exact ends_pure _ _ _

theorem length_afterNumber (v : List UInt8) : (afterNumber v).length ≤ v.length := by
  obtain ⟨ds, -, hv, -⟩ := Text.strtoul_split 0 v
  rw [afterNumber]
  generalize (Text.strtoul 0 v).2 = w at hv
  subst hv
  simp

/-- The address looked for at `p` has been read as it should: with the place behind it. -/
def AddressRead (b : Store) (e p : Nat) (c : List (List UInt8)) (r : Option (Nat × Nat)) :
    Option (Nat × List UInt8) → Prop
  | none => r = none
  | some (ip, w) => ∃ q, r = some (ip, q) ∧ At b e q (w :: c) ∧ p ≤ q

theorem AddressRead.mono {p' : Nat} {r : Option (Nat × Nat)} {addr : Option (Nat × List UInt8)}
    (h : AddressRead b e p' c r addr) (hle : p ≤ p') : AddressRead b e p c r addr := by
  cases addr with
  | none => exact h
  | some addr =>
    obtain ⟨q, hr, hat, hq⟩ := h
    exact ⟨q, hr, hat, Nat.le_trans hle hq⟩

theorem inetAtonLoop_at (left : Nat) :
    ∀ (ip : Nat) {p : Nat} {v : List UInt8}, At b e p (v :: c) → v.length < scanLimit →
      ∃ r, (inetAtonLoop left ip p).Ends e b (some r) b ∧
        AddressRead b e p c r (Text.inetAtonLoop left ip v) := by
  induction left with
  | zero =>
    intro ip p v h hlen
    obtain ⟨q, hoctet, hat, hle⟩ := octet_at h hlen
    rw [Text.inetAtonLoop_zero (v := numberOf v) (q := afterNumber v) rfl]
    by_cases hbad : afterNumber v = v ∨ numberOf v > 255
    · rw [if_pos hbad] at hoctet ⊢
      exact ⟨none, (hoctet.bind _).ends (ends_pure _ _ _), rfl⟩
    · rw [if_neg hbad] at hoctet ⊢
      exact ⟨_, (hoctet.bind _).ends (ends_pure _ _ _), q, rfl, hat, hle⟩
  | succ left ih =>
    intro ip p v h hlen
    obtain ⟨q, hoctet, hat, hle⟩ := octet_at h hlen
    by_cases hbad : afterNumber v = v ∨ numberOf v > 255
    · have hnone : Text.inetAtonLoop (left + 1) ip v = none := by
        rw [Text.inetAtonLoop, show Text.strtoul 0 v = (numberOf v, afterNumber v) from rfl]
        exact if_pos hbad
      rw [if_pos hbad] at hoctet
      rw [hnone]
      exact ⟨none, (hoctet.bind _).ends (ends_pure _ _ _), rfl⟩
    · rw [if_neg hbad] at hoctet
      have hlong := length_afterNumber v
      obtain ⟨hs, hlt, -⟩ := hat.string
      have hq : q < e := by omega
      have hdot : (inetAtonLoop (left + 1) ip p).Leads e b _ b := (hoctet.bind _).trans (leads_readByte hq _)
      cases hw : afterNumber v with
      | nil =>
        rw [hw] at hs
        rw [Text.inetAtonLoop_nil (v := numberOf v) (by rw [← hw]; rfl)]
        rw [stringAt_nil.mp hs, if_neg (by decide)] at hdot
        exact ⟨none, hdot.ends (ends_pure _ _ _), rfl⟩
      | cons x w =>
        rw [hw] at hs hat hbad hlong
        rw [Text.inetAtonLoop_cons (v := numberOf v) (c := x) (q := w) (by rw [← hw]; rfl), if_neg hbad]
        rw [(stringAt_cons.mp hs).1] at hdot
        by_cases hx : x = 46
        · rw [if_pos hx] at hdot ⊢
          rw [List.length_cons] at hlong
          obtain ⟨r, hrest, hread⟩ := ih (ip <<< 8 ||| numberOf v) (At.append (u := [x]) hat) (by omega)
          exact ⟨r, hdot.ends hrest, hread.mono (Nat.le_add_right_of_le hle)⟩
        · rw [if_neg hx] at hdot ⊢
          exact ⟨none, hdot.ends (ends_pure _ _ _), rfl⟩

/-- Behind the payload a number is looked for in vain. -/
theorem strtoul_outside (hp : e ≤ p) : ¬ (strtoul scanLimit 0 p).Within e b := by
  obtain ⟨fuel, hfuel⟩ : ∃ fuel, scanLimit = fuel + 1 := ⟨2 ^ 32 - 1, rfl⟩
  rw [hfuel, strtoul, within_readByte_bind]
  exact fun h => Nat.not_lt_of_le hp h.1

theorem inetAton_outside (hp : e ≤ p) : ¬ (inetAton p).Within e b := by
  rw [inetAton, inetAtonLoop, within_bind, octet, within_bind]
  exact fun h => strtoul_outside hp h.1.1

theorem length_lt_scanLimit (h : At b e p (v :: c)) (he : e ≤ scanLimit) : v.length < scanLimit := by
  have := h.string.2.1
  omega

theorem inetAton_at (h : At b e p (v :: c)) (he : e ≤ scanLimit) (old : Nat) :
    ∃ r q, (inetAton p).Ends e b (some r) b ∧
      r.getD (old, p) = (((Text.inetAton v).map Prod.fst).getD old, q) ∧ At b e q (afterAddress v :: c) ∧
      p ≤ q := by
  obtain ⟨r, hends, hread⟩ := inetAtonLoop_at 3 0 h (length_lt_scanLimit h he)
  refine ⟨r, ?_⟩
  rw [afterAddress]
  change AddressRead b e p c r (Text.inetAton v) at hread
  cases haddr : Text.inetAton v with
  | none =>
    rw [haddr] at hread
    obtain rfl : r = none := hread
    exact ⟨p, hends, rfl, h, Nat.le_refl p⟩
  | some addr =>
    rw [haddr] at hread
    obtain ⟨q, rfl, hat, hle⟩ := hread
    exact ⟨q, hends, rfl, hat, hle⟩

/-- What the fields of a multicast option are read as. -/
def FieldsRead (b : Store) (e : Nat) (o : Options) (p : Nat) : Look → Prop
  | .option opt rest => ∃ ip port master x q, opt o = .multicast ip port master ∧
      (multicastFields o p).Ends e b (some ({ o with
        multicastIp := ip, multicastPort := port, ismaster := master }, q)) b ∧ At b e q (x :: rest) ∧ p ≤ q
  | .outside => ¬ (multicastFields o p).Within e b
  | _ => False

theorem master_at {x : List UInt8} (h : At b e p (x :: c)) :
    p < e ∧ decide (b p = 49) = decide (x.head? = some 49) := by
  obtain ⟨hs, hlt, -⟩ := h.string
  refine ⟨by omega, ?_⟩
  cases x with
  | nil =>
    rw [stringAt_nil.mp hs]
    rfl
  | cons a x =>
    rw [(stringAt_cons.mp hs).1, List.head?_cons]
    exact decide_eq_decide.mpr (by simp)

theorem multicastFields_at (h : At b e p c) (he : e ≤ scanLimit) (o : Options) :
    FieldsRead b e o p (lookMulticast c) := by
  cases c with
  | nil =>
    intro hin
    rw [multicastFields, within_bind] at hin
    exact inetAton_outside (Nat.le_of_eq h.end_of_nil.symm) hin.1
  | cons v c =>
    obtain ⟨r, q, haddr, hget, hat, hle⟩ := inetAton_at h he o.multicastIp
    have hport := hat.next (List.cons_ne_nil _ _)
    have hfields : (multicastFields o p).Leads e b _ b := haddr.bind _
    simp only [hget] at hfields
    rw [lookMulticast]
    cases hc : next (afterAddress v :: c) with
    | nil =>
      rw [hc] at hport
      intro hin
      rw [hfields.within, within_bind] at hin
      exact strtoul_outside (Nat.le_of_eq hport.end_of_nil.symm) hin.1
    | cons w c =>
      rw [hc] at hport
      obtain ⟨r', hnum, hat', hle', -⟩ := strtoul_at hport (length_lt_scanLimit hport he)
      have hmaster := hat'.next (List.cons_ne_nil _ _)
      replace hfields := hfields.trans (hnum.bind _)
      rw [lookPort]
      cases hn : next (afterNumber w :: c) with
      | nil =>
        rw [hn] at hmaster
        intro hin
        rw [hfields.within, within_bind, within_readByte] at hin
        exact absurd hin.1 (Nat.not_lt_of_le (Nat.le_of_eq hmaster.end_of_nil.symm))
      | cons x c =>
        rw [hn] at hmaster
        obtain ⟨hlt, hone⟩ := master_at hmaster
        refine ⟨_, _, _, x, r' + 1, rfl, hfields.ends ?_, hmaster, by omega⟩
        rw [← hone]
        exact (leads_readByte hlt _).ends (ends_pure _ _ _)

theorem strncmp_string (text : List UInt8) (htext : 0 ∉ text) :
    ∀ {p : Nat} {s : List UInt8}, StringAt b p s →
      (strncmp (text ++ [0]) p).Ends (p + s.length + 1) b (decide (s = text)) b := by
  induction text with
  | nil =>
    intro p s h
    refine (leads_readByte (by omega) _).ends ?_
    cases s with
    | nil =>
      rw [stringAt_nil.mp h]
      exact ends_pure _ _ _
    | cons c s =>
      obtain ⟨hc, hc0, -⟩ := stringAt_cons.mp h
      rw [hc, if_pos hc0]
      exact ends_pure _ _ _
  | cons a text ih =>
    intro p s h
    rw [List.mem_cons, not_or] at htext
    refine (leads_readByte (by omega) _).ends ?_
    cases s with
    | nil =>
      rw [stringAt_nil.mp h, if_pos htext.1]
      exact ends_pure _ _ _
    | cons c s =>
      obtain ⟨hc, -, hs⟩ := stringAt_cons.mp h
      rw [hc, add_length_cons]
      by_cases hsame : c = a
      · rw [if_neg (not_not_intro hsame), if_neg (Ne.symm htext.1)]
        simp only [List.cons.injEq, hsame, true_and]
        exact ih htext.2 hs
      · rw [if_pos hsame, decide_eq_false (fun h => hsame (List.cons.inj h).1)]
        exact ends_pure _ _ _

theorem strncmp_at (h : At b e p (s :: c)) :
    (strncmp multicastText p).Ends e b (decide (s = multicastName)) b := by
  obtain ⟨hs, hlt, -⟩ := h.string
  exact (strncmp_string multicastName (by decide) hs).mono hlt

theorem tsizeText_letters : ∀ c ∈ tsizeText, upcase c ≠ 0 := by
  simp only [tsizeText, List.forall_mem_cons, List.not_mem_nil, false_imp_iff, implies_true, and_true]
  decide

/-! ## One round -/

/-- What a round of the loop does at a place. -/
def Round (b : Store) (e fuel i : Nat) (o : Options) (p : Nat) : Look → Prop
  | .stop => ∃ r, (optionLoop e (fuel + 1) i o p).Ends e b (some r) b
  | .option opt rest => ∃ q, At b e q rest ∧ p < q ∧ (optionLoop e (fuel + 1) i o p).Leads e b
      (optionLoop e fuel ((opt o).apply (i, o)).1 ((opt o).apply (i, o)).2 q) b
  | .outside => ¬ (optionLoop e (fuel + 1) i o p).Within e b
  | .unknown => ((optionLoop e (fuel + 1) i o p).run b).1 = none

theorem value_at {text : List UInt8} (h : At b e p (s :: c)) (hname : sameText text s = true) :
    At b e (p + (text.length + 1)) (skip (text.length + 1) (s :: c)) := by
  refine h.skip ?_
  have := (Tftp.sameText_iff text).1 hname
  rw [joined_cons, List.length_append, List.length_cons]
  omega

section Kinds

variable (h : At b e p (s :: c)) (hgo : ¬ (b p = 0 ∨ e ≤ p)) (he : e ≤ scanLimit) (fuel i : Nat)
  (o : Options)
include h hgo

theorem optionLoop_compare : (optionLoop e (fuel + 1) i o p).Leads e b (if sameText tsizeText s then
      (do match ← strtoul scanLimit 0 (p + 6) with
          | none => pure none
          | some (v, q) => do
              let q ← skipValue (e - q) q
              optionLoop e fuel (if v > 0 then i ||| 4 else i) { o with filesize := v } q)
    else if sameText Tftp.blksizeText s then
      (do match ← strtoul scanLimit 0 (p + 8) with
          | none => pure none
          | some (v, q) =>
            if v ≠ minPacket then pure (some (0, { o with blockSize := v }))
            else do
              let q ← skipValue (e - q) q
              optionLoop e fuel (i ||| 2) { o with blockSize := v } q)
    else if s = multicastName then
      (do match ← multicastFields o (p + 10) with
          | none => pure none
          | some (o, q) => do
              let q ← skipValue (e - q) q
              optionLoop e fuel (i ||| 1) o q)
    else pure none) b := by
  have hbyte : p < e := Nat.lt_of_not_le (fun hle => hgo (Or.inr hle))
  refine (leads_readByte hbyte _).trans ?_
  rw [if_neg hgo]
  refine ((strcasecmp_at tsizeText_letters h).bind _).trans ?_
  split
  · exact ⟨rfl, Iff.rfl⟩
  · refine ((strcasecmp_at Tftp.upcase_blksizeText h).bind _).trans ?_
    split
    · exact ⟨rfl, Iff.rfl⟩
    · refine ((strncmp_at h).bind _).trans ?_
      simp only [decide_eq_true_eq]
      exact ⟨rfl, Iff.rfl⟩

include he

theorem round_tsize (hname : sameText tsizeText s = true) :
    Round b e fuel i o p (lookTsize (skip 6 (s :: c))) := by
  have hround := optionLoop_compare h hgo fuel i o
  rw [if_pos hname] at hround
  have hval : At b e (p + 6) (skip 6 (s :: c)) := value_at h hname
  cases hv : skip 6 (s :: c) with
  | nil =>
    rw [hv] at hval
    intro hwithin
    rw [hround.within, within_bind] at hwithin
    exact strtoul_outside (Nat.le_of_eq hval.end_of_nil.symm) hwithin.1
  | cons v rest =>
    rw [hv] at hval
    obtain ⟨q, hnum, hat, hle, -⟩ := strtoul_at hval (length_lt_scanLimit hval he)
    obtain ⟨q', hskip, hat', hlt⟩ := skipValue_at hat
    exact ⟨q', hat', by omega, hround.trans ((hnum.bind _).trans (hskip.bind _))⟩

theorem round_blksize (hno : ¬ sameText tsizeText s = true) (hname : sameText Tftp.blksizeText s = true) :
    Round b e fuel i o p (lookBlksize (skip 8 (s :: c))) := by
  have hround := optionLoop_compare h hgo fuel i o
  rw [if_neg hno, if_pos hname] at hround
  have hval : At b e (p + 8) (skip 8 (s :: c)) := value_at h hname
  cases hv : skip 8 (s :: c) with
  | nil =>
    rw [hv] at hval
    intro hwithin
    rw [hround.within, within_bind] at hwithin
    exact strtoul_outside (Nat.le_of_eq hval.end_of_nil.symm) hwithin.1
  | cons v rest =>
    rw [hv] at hval
    obtain ⟨q, hnum, hat, hle, -⟩ := strtoul_at hval (length_lt_scanLimit hval he)
    replace hround := hround.trans (hnum.bind _)
    rw [lookBlksize]
    by_cases hsize : numberOf v = minPacket
    · obtain ⟨q', hskip, hat', hlt⟩ := skipValue_at hat
      rw [if_pos hsize]
      simp only [hsize, ne_eq, not_true_eq_false, if_false] at hround
      exact ⟨q', hat', by omega, hround.trans (hskip.bind _)⟩
    · rw [if_neg hsize]
      simp only [ne_eq, hsize, not_false_eq_true, if_true] at hround
      exact ⟨_, hround.ends (ends_pure _ _ _)⟩

theorem round_multicast (hno : ¬ sameText tsizeText s = true) (hno' : ¬ sameText Tftp.blksizeText s = true)
    (hname : s = multicastName) : Round b e fuel i o p (lookMulticast c) := by
  have hround := optionLoop_compare h hgo fuel i o
  rw [if_neg hno, if_neg hno', if_pos hname] at hround
  have hval := h.string.2.2
  rw [hname] at hval
  have hfields := multicastFields_at hval he o
  generalize lookMulticast c = l at hfields ⊢
  cases l with
  | stop => exact hfields.elim
  | unknown => exact hfields.elim
  | outside =>
    intro hwithin
    rw [hround.within, within_bind] at hwithin
    exact hfields hwithin.1
  | option opt rest =>
    obtain ⟨ip, port, master, x, q, hopt, hset, hat, hle⟩ := hfields
    obtain ⟨q', hskip, hat', hlt⟩ := skipValue_at hat
    refine ⟨q', hat', by omega, ?_⟩
    rw [hopt]
    exact hround.trans ((hset.bind _).trans (hskip.bind _))

omit he in
/-- An option that is not known is looked at again. -/
theorem round_unknown (hno : ¬ sameText tsizeText s = true) (hno' : ¬ sameText Tftp.blksizeText s = true)
    (hname : s ≠ multicastName) : Round b e fuel i o p .unknown := by
  have hround := optionLoop_compare h hgo fuel i o
  rw [if_neg hno, if_neg hno', if_neg hname] at hround
  exact congrArg Prod.fst hround.run

end Kinds

/-- **One round.** At every place the loop does what `look` says. -/
theorem optionLoop_round (h : At b e p c) (he : e ≤ scanLimit) (fuel i : Nat) (o : Options) :
    Round b e fuel i o p (look c) := by
  rcases c with _ | ⟨_ | ⟨a, s⟩, c⟩
  · intro hin
    rw [optionLoop, within_readByte_bind] at hin
    exact absurd hin.1 (Nat.not_lt_of_le (Nat.le_of_eq h.end_of_nil.symm))
  · obtain ⟨hs, hlt, -⟩ := h.string
    refine ⟨(if p > e then 0 else (i : Int), o), (leads_readByte (by omega) _).ends ?_⟩
    rw [if_pos (Or.inl (stringAt_nil.mp hs))]
    exact ends_pure _ _ _
  · obtain ⟨hs, hlt, -⟩ := h.string
    have hgo : ¬ (b p = 0 ∨ e ≤ p) := by
      obtain ⟨ha, ha0, -⟩ := stringAt_cons.mp hs
      rw [ha]
      rintro (h0 | hle)
      · exact ha0 h0
      · omega
    rw [look]
    split
    · next hts => exact round_tsize h hgo he fuel i o hts
    · next hts =>
      split
      · next hbs => exact round_blksize h hgo he fuel i o hts hbs
      · next hbs =>
        split
        · next hname => exact round_multicast h hgo he fuel i o hts hbs hname
        · next hname => exact round_unknown h hgo fuel i o hts hbs hname

/-! ## The walk -/

theorem EndsInside.of_option {rest : List (List UInt8)} {opt : Options → Opt} (h : EndsInside c)
    (hlook : look c = .option opt rest) : EndsInside rest := by
  cases h with
  | stop h =>
    cases hlook.symm.trans h
  | option h hrest =>
    cases hlook.symm.trans h
    exact hrest

theorem EndsInside.look_eq (h : EndsInside c) : look c = .stop ∨ ∃ opt rest, look c = .option opt rest := by
  cases h with
  | stop h => exact Or.inl h
  | option h hrest => exact Or.inr ⟨_, _, h⟩

/-- The loop returns and stays inside the payload if and only if the walk ends inside it. -/
theorem optionLoop_confined_iff (he : e ≤ scanLimit) {fuel : Nat} :
    ∀ {i : Nat} {o : Options} {p : Nat} {c : List (List UInt8)}, At b e p c → e - p < fuel →
      ((∃ r, ((optionLoop e fuel i o p).run b).1 = some r) ∧ (optionLoop e fuel i o p).Within e b ↔
        EndsInside c) := by
  induction fuel with
  | zero => exact fun _ hfuel => by cases hfuel
  | succ fuel ih =>
    intro i o p c h hfuel
    have hround := optionLoop_round h he fuel i o
    cases hlook : look c with
    | stop =>
      rw [hlook] at hround
      obtain ⟨r, hends⟩ := hround
      exact iff_of_true ⟨⟨r, congrArg Prod.fst hends.run⟩, hends.within⟩ (.stop hlook)
    | option opt rest =>
      rw [hlook] at hround
      obtain ⟨q, hat, hlt, hleads⟩ := hround
      have hle : q ≤ e := Nat.le.intro hat.last
      rw [hleads.run, hleads.within, ih hat (by omega)]
      exact ⟨.option hlook, fun hends => hends.of_option hlook⟩
    | outside =>
      rw [hlook] at hround
      refine iff_of_false (fun hand => hround hand.2) (fun hends => ?_)
      rcases hends.look_eq with hl | ⟨opt, rest, hl⟩ <;> rw [hlook] at hl <;> cases hl
    | unknown =>
      rw [hlook] at hround
      refine iff_of_false ?_ (fun hends => ?_)
      · rintro ⟨⟨r, hr⟩, -⟩
        cases hround.symm.trans hr
      · rcases hends.look_eq with hl | ⟨opt, rest, hl⟩ <;> rw [hlook] at hl <;> cases hl

/-- **Where `opt_get_multicast` is confined.** -/
theorem optGetMulticast_confined_iff (o : Options) (hnull : ∀ s ∈ c, 0 ∉ s) (hhas : b.Has 2 (joined c)) :
    (∃ r, readOptions (joined c).length o b = some r) ∧
        (optGetMulticast (joined c).length o).Within (2 + (joined c).length) b ↔
      minPacket < (joined c).length ∨ EndsInside c := by
  rw [readOptions, optGetMulticast]
  by_cases hlong : (joined c).length > minPacket
  · rw [if_pos hlong]
    exact iff_of_true ⟨⟨_, rfl⟩, within_pure _ _ _⟩ (Or.inl hlong)
  · rw [if_neg hlong]
    have hscan : 2 + minPacket ≤ scanLimit := by decide
    rw [optionLoop_confined_iff (by omega) ⟨hhas, rfl, hnull⟩ (by omega), or_iff_right hlong]

/-- The walk over options up to the end of the payload. -/
inductive Walks : List (List UInt8) → List (Options → Opt) → Prop where
  | nil : Walks [] []
  | cons {c rest : List (List UInt8)} {opt : Options → Opt} {opts : List (Options → Opt)}
      (h : look c = .option opt rest) (hrest : Walks rest opts) : Walks c (opt :: opts)

/-- **The walk.** Options are applied one after the other, up to the end. -/
theorem run_optionLoop (he : e ≤ scanLimit) {opts : List (Options → Opt)} (hw : Walks c opts) :
    ∀ {fuel i : Nat} {o : Options} {p : Nat}, At b e p c → e - p < fuel →
      (optionLoop e fuel i o p).run b =
        (some (((opts.foldl (fun s opt => (opt s.2).apply s) (i, o)).1 : Int),
          (opts.foldl (fun s opt => (opt s.2).apply s) (i, o)).2), b) := by
  induction hw with
  | nil =>
    intro fuel i o p h hfuel
    obtain ⟨fuel, rfl⟩ := Nat.exists_eq_succ_of_ne_zero (Nat.ne_zero_of_lt hfuel)
    obtain rfl := h.end_of_nil
    rw [optionLoop, run_readByte_bind, if_pos (Or.inr (Nat.le_refl p)), if_neg (Nat.lt_irrefl p)]
    rfl
  | cons hlook hrest ih =>
    intro fuel i o p h hfuel
    obtain ⟨fuel, rfl⟩ := Nat.exists_eq_succ_of_ne_zero (Nat.ne_zero_of_lt hfuel)
    have hround := optionLoop_round h he fuel i o
    rw [hlook] at hround
    obtain ⟨q, hat, hlt, hleads⟩ := hround
    have hle : q ≤ e := Nat.le.intro hat.last
    rw [hleads.run, ih hat (by omega)]
    rfl

end Read

/-! ## Options as they should be -/

theorem sameText_of_map {text s : List UInt8} (h : s.map upcase = text.map upcase) : sameText text s = true :=
  ((Tftp.sameText_iff text).2.mpr h).1

/-- A name is long enough to have a first letter, and it is in its text's case or the other. -/
theorem cons_of_map {a : UInt8} {text s : List UInt8} (h : s.map upcase = (a :: text).map upcase) :
    ∃ c s', s = c :: s' ∧ upcase c = upcase a ∧ s.length = text.length + 1 := by
  cases s with
  | nil => cases h
  | cons c s' =>
    have hlen := congrArg List.length h
    rw [List.map_cons, List.map_cons, List.cons.injEq] at h
    exact ⟨c, s', rfl, h.1, by simpa using hlen⟩

section Values

variable {name v : List UInt8} (rest : List (List UInt8))

theorem look_tsize (hname : name.map upcase = tsizeText.map upcase) :
    look (name :: v :: rest) = .option (fun _ => .tsize (numberOf v)) rest := by
  obtain ⟨c, s, rfl, -, hlen⟩ := cons_of_map hname
  rw [look, if_pos (sameText_of_map hname), skip_cons (k := 5) _ hlen]
  rfl

theorem look_blksize (hname : name.map upcase = Tftp.blksizeText.map upcase)
    (hv : numberOf v = minPacket) : look (name :: v :: rest) = .option (fun _ => .blksize) rest := by
  obtain ⟨c, s, rfl, hc, hlen⟩ := cons_of_map hname
  have hother : sameText tsizeText (c :: s) = false := by
    rw [tsizeText, sameText, hc]
    rfl
  rw [look, hother, if_neg Bool.false_ne_true, if_pos (sameText_of_map hname),
    skip_cons (k := 7) _ hlen, lookBlksize, if_pos hv]

end Values

variable {n : Nat} {opts : List Opt}

/-- The value of a multicast option, with an address and a port or without. -/
theorem look_multicast {addr port : List UInt8} {ip : Option Nat} (mc : List UInt8)
    (haddr : ∀ w, Text.NoDigit w → Text.inetAton (addr ++ w) = ip.map (·, w) ∧ (ip = none → addr = []))
    (hport : Text.Digits port) (hn : decimal 0 port = n) (hlt : n < 2 ^ 16)
    (rest : List (List UInt8)) :
    look (multicastName :: (addr ++ 44 :: (port ++ 44 :: mc)) :: rest) =
      .option (fun o => .multicast (ip.getD o.multicastIp) n (decide (mc.head? = some 49))) rest := by
  have hcomma (w : List UInt8) : Text.NoDigit (44 :: w) := fun h : Text.isDigit 44 => absurd h (by decide)
  obtain ⟨hip, hnone⟩ := haddr _ (hcomma (port ++ 44 :: mc))
  have hfst : (Text.inetAton (addr ++ 44 :: (port ++ 44 :: mc))).map Prod.fst = ip := by
    rw [hip, Option.map_map]
    exact Option.map_id'
  have hafter : afterAddress (addr ++ 44 :: (port ++ 44 :: mc)) = 44 :: (port ++ 44 :: mc) := by
    rw [afterAddress, hip]
    cases ip with
    | none => rw [hnone rfl]; rfl
    | some ip => rfl
  have hnum : Text.strtoul 0 (port ++ 44 :: mc) = (n % 2 ^ 32, 44 :: mc) := by
    rw [Text.strtoul_append hport (hcomma mc) (by decide), hn]
  have hmod : n % 2 ^ 32 % 2 ^ 16 = n := by omega
  show lookMulticast (_ :: rest) = _
  rw [lookMulticast, hfst, hafter, next, lookPort, afterNumber, numberOf, hnum, next, lookMaster, hmod]

theorem inetAtonLoop_dotted (left : Nat) :
    ∀ {high ip : Nat} {text w : List UInt8}, Dotted left high ip text → Text.NoDigit w →
      Text.inetAtonLoop left high (text ++ w) = some (ip, w) := by
  have hoctet {v : Nat} {ds : List UInt8} (h : Digits v ds) (hv : v ≤ 255) : Text.Octet ds v :=
    ⟨h.ne_nil, h.digits, by rw [h.value, Nat.mod_eq_of_lt (by omega)], hv⟩
  induction left with
  | zero =>
    intro high ip text w h hw
    obtain ⟨v, hds, hv, rfl⟩ := h
    exact Text.inetAtonLoop_append (.last (hoctet hds hv)) hw
  | succ left ih =>
    intro high ip text w h hw
    obtain ⟨v, ds, rest, hds, hv, rfl, hrest⟩ := h
    obtain ⟨hnum, hok⟩ := Text.strtoul_octet (hoctet hds hv) (Text.dot_noDigit (rest ++ w))
    rw [List.append_assoc, List.cons_append, Text.inetAtonLoop_cons hnum, if_neg hok, if_pos rfl, ih hrest hw]

theorem Digits.noNull {ds : List UInt8} (h : Digits n ds) : 0 ∉ ds :=
  fun hz => absurd (h.digits 0 hz) (by decide)

theorem Dotted.noNull (left : Nat) :
    ∀ {high ip : Nat} {text : List UInt8}, Dotted left high ip text → 0 ∉ text := by
  induction left with
  | zero =>
    intro high ip text h
    obtain ⟨v, hds, -⟩ := h
    exact hds.noNull
  | succ left ih =>
    intro high ip text h
    obtain ⟨v, ds, rest, hds, -, rfl, hrest⟩ := h
    have := hds.noNull
    have := ih hrest
    simp_all

/-- Digits are read as their number, up to the end of the string. -/
theorem Digits.numberOf {ds : List UInt8} (h : Digits n ds) : numberOf ds = n % 2 ^ 32 := by
  have hread : Text.strtoul 0 (ds ++ []) = (Tftp.decimal 0 ds % 2 ^ 32, []) :=
    Text.strtoul_append h.digits (show Text.NoDigit [] from trivial) (by decide)
  rw [List.append_nil, h.value] at hread
  rw [Tftm.numberOf, hread]

/-- An option as it should be is two strings, and it is read as it is meant. -/
theorem Opt.Encoded.look {opt : Opt} {bs : List UInt8} (h : opt.Encoded bs) :
    ∃ s v, bs = joined [s, v] ∧ 0 ∉ s ∧ 0 ∉ v ∧
      ∀ rest, Tftm.look (s :: v :: rest) = .option (fun _ => opt) rest := by
  cases opt with
  | tsize size =>
    obtain ⟨hsize, name, ds, rfl, hname, hds⟩ := h
    refine ⟨name, ds, by simp, Tftp.zero_not_mem_of_upcase hname tsizeText_letters, hds.noNull, fun rest => ?_⟩
    rw [look_tsize rest hname, hds.numberOf, Nat.mod_eq_of_lt hsize]
  | blksize =>
    obtain ⟨name, ds, rfl, hname, hds⟩ := h
    exact ⟨name, ds, by simp, Tftp.zero_not_mem_of_upcase hname Tftp.upcase_blksizeText, hds.noNull,
      fun rest => look_blksize rest hname hds.numberOf⟩
  | multicast ip port master =>
    obtain ⟨hport, addr, ds, haddr, hds, rfl⟩ := h
    have hip : ∀ w, Text.NoDigit w →
        Text.inetAton (addr ++ w) = (some ip).map (·, w) ∧ (some ip = none → addr = []) :=
      fun w hw => ⟨inetAtonLoop_dotted 3 haddr hw, fun h => by cases h⟩
    have hlook := look_multicast [if master then 49 else 48] hip hds.digits hds.value hport
    refine ⟨multicastName, addr ++ 44 :: (ds ++ 44 :: [if master then 49 else 48]), ?_, by decide, ?_, ?_⟩
    · simp [multicastName, multicastText]
    · have := haddr.noNull
      have := hds.noNull
      cases master <;> simp_all
    · intro rest
      rw [hlook rest]
      cases master <;> rfl

theorem Announced.walks :
    ∀ {bs : List UInt8}, Announced opts bs →
      ∃ c, bs = joined c ∧ (∀ s ∈ c, 0 ∉ s) ∧ Walks c (opts.map (fun opt _ => opt)) := by
  induction opts with
  | nil =>
    intro bs h
    obtain rfl : bs = [] := h
    exact ⟨[], rfl, by simp, .nil⟩
  | cons opt opts ih =>
    intro bs h
    obtain ⟨first, rest, rfl, hfirst, hrest⟩ := h
    obtain ⟨s, v, rfl, hs, hv, hlook⟩ := hfirst.look
    obtain ⟨c, rfl, hc, hwalks⟩ := ih hrest
    refine ⟨s :: v :: c, by simp, ?_, .cons (hlook c) hwalks⟩
    simpa using ⟨hs, hv, hc⟩

/-- The three options of a multicast transfer, in any order. -/
theorem foldl_apply {size ip port : Nat} {master : Bool} (o : Options)
    (hopts : opts.Perm [.tsize size, .blksize, .multicast ip port master]) (hsize : 0 < size) :
    opts.foldl (fun s opt => opt.apply s) (0, o) = (7, ⟨size, minPacket, ip, port, master⟩) := by
  have hor (i j k : Nat) : i ||| j ||| k = i ||| k ||| j := by
    rw [Nat.or_assoc, Nat.or_comm j, ← Nat.or_assoc]
  have hcomm : ∀ x ∈ opts, ∀ y ∈ opts, ∀ s : Nat × Options, y.apply (x.apply s) = x.apply (y.apply s) := by
    intro x hx y hy s
    have hx' := hopts.mem_iff.mp hx
    have hy' := hopts.mem_iff.mp hy
    simp only [List.mem_cons, List.not_mem_nil, or_false] at hx' hy'
    rcases hx' with rfl | rfl | rfl <;> rcases hy' with rfl | rfl | rfl <;>
      simp only [Opt.apply, hsize, if_true] <;>
      first | rfl | (congr 1; exact hor ..)
  rw [hopts.foldl_eq' hcomm]
  simp only [List.foldl_cons, List.foldl_nil, Opt.apply, gt_iff_lt, hsize, if_true]
  rfl

/-- **The options are read as they are meant.** -/
theorem readOptions_announced {bs : List UInt8} {body : Store}
    {size ip port : Nat} {master : Bool} (o : Options)
    (hopts : opts.Perm [.tsize size, .blksize, .multicast ip port master]) (hsize : 0 < size)
    (hbs : Announced opts bs) (hbody : body.Has 2 bs) (hlen : bs.length ≤ minPacket) :
    readOptions bs.length o body = some (7, ⟨size, minPacket, ip, port, master⟩) := by
  obtain ⟨c, rfl, hnull, hwalks⟩ := hbs.walks
  have hscan : 2 + minPacket ≤ scanLimit := by decide
  rw [readOptions, optGetMulticast, if_neg (by omega),
    run_optionLoop (by omega) hwalks ⟨hbody, rfl, hnull⟩ (by omega), List.foldl_map, foldl_apply o hopts hsize]
  rfl

end Tftm
