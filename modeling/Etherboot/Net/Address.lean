import Etherboot.Lib.Footprint

set_option autoImplicit false

/-! # Numbers and addresses in a text (`core/misc.c`)

A text is the list of its bytes, without the null at its end. -/

namespace Text

def bytes (s : String) : List UInt8 := s.toList.map (fun c => UInt8.ofNat c.toNat)

def isDigit (c : UInt8) : Prop := 48 ≤ c.toNat ∧ c.toNat ≤ 57
  deriving Decidable

def Digits (ds : List UInt8) : Prop := ∀ d ∈ ds, isDigit d

instance (ds : List UInt8) : Decidable (Digits ds) := List.decidableBAll _ ds

/-- `strtoul` to base 10: the number, behind `ret`, and the text behind the digits. -/
def strtoul : Nat → List UInt8 → Nat × List UInt8
  | ret, [] => (ret, [])
  | ret, c :: p =>
    if isDigit c then strtoul ((ret * 10 + (c.toNat - 48)) % 2 ^ 32) p else (ret, c :: p)

/-- The loop of `inet_aton`, with `left` numbers to come after the next one. -/
def inetAtonLoop : Nat → Nat → List UInt8 → Option (Nat × List UInt8)
  | left, ip, p =>
    let (val, q) := strtoul 0 p
    if q = p ∨ val > 255 then none
    else
      match left, q with
      | 0, q => some (ip <<< 8 ||| val, q)
      | left + 1, c :: q => if c = 46 then inetAtonLoop left (ip <<< 8 ||| val) q else none
      | _ + 1, [] => none

/-- `inet_aton`: the address, and the text behind it. -/
def inetAton (start : List UInt8) : Option (Nat × List UInt8) := inetAtonLoop 3 0 start

example : inetAton (bytes "10.0.2.15:80/") = some (0x0a00020f, bytes ":80/") := by decide +kernel

example : inetAton (bytes "10.0.256.1") = none := by decide +kernel

end Text
