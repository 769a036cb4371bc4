import Etherboot.Lib.Memory

set_option autoImplicit false

/-! # Sequence numbers

Numbers of 32 bits that count around. The difference of two of them, read as a signed number, is that
of the positions they stand for, as long as these are less than `2^31` apart. -/

namespace Serial

open Memory

/-- `a - b` as a signed number of 32 bits. -/
def diff (a b : Nat) : Int := if wsub a b < 2 ^ 31 then wsub a b else (wsub a b : Int) - 2 ^ 32

theorem diff_offset (base : Nat) {x y : Nat} (h : x < y + 2 ^ 31) (h' : y < x + 2 ^ 31) :
    diff ((base + x) % 2 ^ 32) ((base + y) % 2 ^ 32) = (x : Int) - y := by
  unfold diff wsub
  omega

end Serial
