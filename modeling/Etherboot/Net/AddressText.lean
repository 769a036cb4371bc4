import Etherboot.Boot.Loadkernel

set_option autoImplicit false

/-! # Addresses as texts (`core/vsprintf.c`)

`vsprintf` writes an address as four numbers with dots between them, each by a loop that leaves its digits in
the wrong order and one that turns them round in place. `inetAton_sprintf` says that `inet_aton` reads the
address back, and so does `loadkernel` with what the resolver of names has written. -/

namespace Text

open Memory
open Tftp (decimal)

/-! ## `%d` -/

/-- The loop that writes the digits, the last one first. -/
def digitLoop (i : Nat) : List UInt8 :=
  UInt8.ofNat (48 + i % 10) :: if h : i / 10 = 0 then [] else digitLoop (i / 10)
termination_by i
decreasing_by omega

/-- The loop that turns the bytes from `p` up to `r` round. -/
def reverseLoop : Nat → Store → Nat → Store
  | 0, b, _ => b
  | r + 1, b, p => if p < r then reverseLoop r ((b.set r (b p)).set p (b r)) (p + 1) else b

/-- `%d` for a number that is not negative, in the buffer `tmp`. -/
def formatDecimal (tmp : Store) (i : Nat) : List UInt8 :=
  let ds := digitLoop i
  (reverseLoop ds.length (tmp.splice 0 ds) 0).slice 0 ds.length

theorem reverseLoop_apply (r : Nat) (b : Store) (p i : Nat) :
    reverseLoop r b p i = if p ≤ i ∧ i < r then b (p + r - 1 - i) else b i := by
  induction r generalizing b p with
  | zero => rw [reverseLoop, if_neg (by omega)]
  | succ r ih =>
    rw [reverseLoop]
    split
    · -- the outermost two bytes, and what is between them
      rw [ih]
      simp only [Store.set]
      rcases Nat.lt_trichotomy i p with hlt | rfl | hgt
      · rw [if_neg (by omega), if_neg (by omega), if_neg (by omega), if_neg (by omega)]
      · rw [if_neg (by omega), if_pos rfl, if_pos (by omega), show i + (r + 1) - 1 - i = r by omega]
      · rcases Nat.lt_trichotomy i r with hir | rfl | hir
        · rw [if_pos (by omega), if_neg (by omega), if_neg (by omega), if_pos (by omega)]
          exact congrArg b (by omega)
        · rw [if_neg (by omega), if_neg (by omega), if_pos rfl, if_pos (by omega)]
          exact congrArg b (by omega)
        · rw [if_neg (by omega), if_neg (by omega), if_neg (by omega), if_neg (by omega)]
    · split
      · exact congrArg b (by omega)
      · rfl

theorem formatDecimal_eq (tmp : Store) (i : Nat) : formatDecimal tmp i = (digitLoop i).reverse := by
  rw [formatDecimal]
  generalize digitLoop i = ds
  apply List.ext_getElem
  · simp
  · intro k hk _
    rw [Store.length_slice] at hk
    simp only [Store.slice, List.getElem_map, List.getElem_range, List.getElem_reverse]
    rw [reverseLoop_apply, if_pos (by omega), show 0 + ds.length - 1 - (0 + k) = 0 + (ds.length - 1 - k) by omega,
      Store.splice_add _ _ _ (by omega)]
    rfl

theorem digitLoop_decimal (i : Nat) :
    Digits (digitLoop i).reverse ∧ decimal 0 (digitLoop i).reverse = i := by
  induction i using Nat.strong_induction_on with
  | _ i ih =>
    have hdigit : (UInt8.ofNat (48 + i % 10)).toNat = 48 + i % 10 := by
      rw [UInt8.toNat_ofNat']
      omega
    have hvalue (ds : List UInt8) :
        decimal 0 (ds ++ [UInt8.ofNat (48 + i % 10)]) = decimal 0 ds * 10 + i % 10 := by
      rw [decimal, List.foldl_append, List.foldl_cons, List.foldl_nil, hdigit, Nat.add_sub_cancel_left]
      rfl
    have hone : ∀ d ∈ [UInt8.ofNat (48 + i % 10)], isDigit d := by
      intro d hd
      rw [List.mem_singleton.mp hd, isDigit, hdigit]
      omega
    rw [digitLoop, List.reverse_cons, hvalue]
    split
    · exact ⟨hone, by rw [List.reverse_nil, show decimal 0 [] = 0 from rfl]; omega⟩
    · obtain ⟨hds, hrest⟩ := ih (i / 10) (by omega)
      refine ⟨fun d hd => (List.mem_append.mp hd).elim (hds d) (hone d), ?_⟩
      omega

theorem formatDecimal_octet (tmp : Store) (c : UInt8) : Octet (formatDecimal tmp c.toNat) c.toNat := by
  obtain ⟨hdigits, hvalue⟩ := digitLoop_decimal c.toNat
  have hlt := c.toNat_lt
  rw [formatDecimal_eq]
  refine ⟨fun hnil => ?_, hdigits, by rw [hvalue]; omega, by omega⟩
  rw [List.reverse_eq_nil_iff, digitLoop] at hnil
  cases hnil

/-! ## `%@` -/

/-- `sprintf(buf, "%@", a)`: the bytes of the address in memory, each with a dot behind it, without the last
    dot. -/
def sprintfAddress (tmp : Store) (a : UInt32) : List UInt8 :=
  ((le32Bytes a.toNat).flatMap (fun r => formatDecimal tmp r.toNat ++ [46])).dropLast

/-- `htonl`, on a little endian machine. -/
def htonl (n : Nat) : Nat :=
  n / 2 ^ 24 % 256 + n / 2 ^ 16 % 256 * 2 ^ 8 + n / 2 ^ 8 % 256 * 2 ^ 16 + n % 256 * 2 ^ 24

theorem htonl_address (a b c d : UInt8) : htonl (address a.toNat b.toNat c.toNat d.toNat) =
    a.toNat + b.toNat * 2 ^ 8 + c.toNat * 2 ^ 16 + d.toNat * 2 ^ 24 := by
  have ha := a.toNat_lt
  have hb := b.toNat_lt
  have hc := c.toNat_lt
  have hd := d.toNat_lt
  rw [htonl, address]
  omega

/-- **The address is read back**, and nothing is left of the text; a server that has been resolved has the
    address that was found for it. -/
theorem inetAton_sprintf (tmp : Store) (a : UInt32) (server : Nat) :
    (inetAton (sprintfAddress tmp a)).map (fun r => (htonl r.1, r.2)) = some (a.toNat, []) ∧
      htonl (Loadkernel.addressOr server (sprintfAddress tmp a)) = a.toNat := by
  obtain ⟨c₀, c₁, c₂, c₃, hbytes, hvalue⟩ : ∃ c₀ c₁ c₂ c₃ : UInt8, le32Bytes a.toNat = [c₀, c₁, c₂, c₃] ∧
      htonl (address c₀.toNat c₁.toNat c₂.toNat c₃.toNat) = a.toNat := by
    refine ⟨_, _, _, _, rfl, ?_⟩
    have hlt := a.toNat_lt
    rw [htonl_address]
    simp only [UInt8.toNat_ofNat']
    omega
  have hsmall (c : UInt8) : c.toNat ≤ 255 := Nat.le_of_lt_succ c.toNat_lt
  have htext : Dotted 3 (sprintfAddress tmp a) [c₀.toNat, c₁.toNat, c₂.toNat, c₃.toNat] := by
    have hdots : sprintfAddress tmp a = formatDecimal tmp c₀.toNat ++ 46 :: (formatDecimal tmp c₁.toNat ++
        46 :: (formatDecimal tmp c₂.toNat ++ 46 :: formatDecimal tmp c₃.toNat)) := by
      refine Eq.trans ?_ (List.dropLast_concat (b := 46))
      rw [sprintfAddress, hbytes]
      simp only [List.flatMap_cons, List.flatMap_nil, List.append_assoc, List.append_nil, List.cons_append,
        List.nil_append]
    rw [hdots]
    exact .more (formatDecimal_octet tmp c₀) (.more (formatDecimal_octet tmp c₁)
      (.more (formatDecimal_octet tmp c₂) (.last (formatDecimal_octet tmp c₃))))
  have hread : inetAton (sprintfAddress tmp a) =
      some (address c₀.toNat c₁.toNat c₂.toNat c₃.toNat, []) := by
    have h := @inetAtonLoop_append 3 0 _ [] _ htext trivial
    rw [List.append_nil, joinBytes_four (hsmall c₁) (hsmall c₂) (hsmall c₃)] at h
    exact h
  rw [Loadkernel.addressOr, hread]
  exact ⟨congrArg (fun n => some (n, [])) hvalue, hvalue⟩

end Text
