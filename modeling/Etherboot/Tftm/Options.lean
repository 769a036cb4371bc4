import Etherboot.Tftp.Oack

set_option autoImplicit false

/-! # The options of multicast TFTP (`opt_get_multicast` in `core/proto_tftm.c`)

The server answers a multicast request with an option acknowledgement that holds three options: the
file's size, the block size, and the multicast group with its port and whether the client is the
master. `optGetMulticast` walks over them. It is a byte program on the UDP payload. An option that it
does not know stops it for ever.

`optionLoop_inv` is the rule for what holds of all that it can read. -/

namespace Tftm

open Memory Prog
open Tftp (strcasecmp strtoul scanLimit upcase decimal)
open Text (isDigit)

/-- `TFTM_MIN_PACKET` -/
def minPacket : Nat := 1024

/-- What the walk sets: the caller's `filesize`, and fields of `state` and `info`. -/
structure Options where
  filesize : Nat
  blockSize : Nat
  multicastIp : Nat
  multicastPort : Nat
  ismaster : Bool
  deriving DecidableEq, Repr

/-! ## The walk -/

def tsizeText : List UInt8 := [0x74, 0x73, 0x69, 0x7a, 0x65]

/-- The option's name with its null. -/
def multicastText : List UInt8 := [0x6d, 0x75, 0x6c, 0x74, 0x69, 0x63, 0x61, 0x73, 0x74, 0]

/-- `strncmp(p, text, n) == 0` for a text of `n` bytes. -/
def strncmp : List UInt8 → Nat → Prog Bool
  | [], _ => pure true
  | a :: as, p => do
      let b ← readByte p
      if b ≠ a then pure false
      else if a = 0 then pure true
      else strncmp as (p + 1)

/-- One number of an address: `some none` if there is none, or it is too large. -/
def octet (p : Nat) : Prog (Option (Option (Nat × Nat))) := do
  match ← strtoul scanLimit 0 p with
  | none => pure none
  | some (val, q) => if q = p ∨ val > 255 then pure (some none) else pure (some (some (val, q)))

/-- The loop of `inet_aton`, with `left` numbers to come after the next one. -/
def inetAtonLoop : Nat → Nat → Nat → Prog (Option (Option (Nat × Nat)))
  | 0, ip, p => do
      match ← octet p with
      | none => pure none
      | some none => pure (some none)
      | some (some (val, q)) => pure (some (some (ip <<< 8 ||| val, q)))
  | left + 1, ip, p => do
      match ← octet p with
      | none => pure none
      | some none => pure (some none)
      | some (some (val, q)) => do
          let c ← readByte q
          if c = 46 then inetAtonLoop left (ip <<< 8 ||| val) (q + 1) else pure (some none)

/-- `inet_aton`: the address and the position behind it. -/
def inetAton (p : Nat) : Prog (Option (Option (Nat × Nat))) := inetAtonLoop 3 0 p

/-- `while (p < e && *p) p++; if (p < e) p++;` with `n` bytes from `p` to `e`. -/
def skipValue : Nat → Nat → Prog Nat
  | 0, p => pure p
  | n + 1, p => do
      let c ← readByte p
      if c = 0 then pure (p + 1) else skipValue n (p + 1)

/-- The fields of the multicast option, from the address on: the position behind the last one that is
    read. An address that is none is left out, with the byte behind it taken for the comma. -/
def multicastFields (o : Options) (p : Nat) : Prog (Option (Options × Nat)) := do
  match ← inetAton p with
  | none => pure none
  | some addr =>
    let (ip, q) := addr.getD (o.multicastIp, p)
    match ← strtoul scanLimit 0 (q + 1) with
    | none => pure none
    | some (port, r) => do
        let master ← readByte (r + 1)
        pure (some ({ o with
          multicastIp := ip, multicastPort := port % 2 ^ 16, ismaster := decide (master = 49) }, r + 1))

/-- The loop, with `i` the options seen so far. Every round moves `p` on, so that it is the length of
    the payload that bounds it. -/
def optionLoop (e : Nat) : Nat → Nat → Options → Nat → Prog (Option (Int × Options))
  | 0, _, _, _ => pure none
  | fuel + 1, i, o, p => do
      let c ← readByte p
      if c = 0 ∨ e ≤ p then pure (some (if p > e then 0 else (i : Int), o))
      else if ← strcasecmp tsizeText p then
        match ← strtoul scanLimit 0 (p + 6) with
        | none => pure none
        | some (v, q) => do
            let q ← skipValue (e - q) q
            optionLoop e fuel (if v > 0 then i ||| 4 else i) { o with filesize := v } q
      else if ← strcasecmp Tftp.blksizeText p then
        match ← strtoul scanLimit 0 (p + 8) with
        | none => pure none
        | some (v, q) =>
          if v ≠ minPacket then pure (some (0, { o with blockSize := v }))
          else do
            let q ← skipValue (e - q) q
            optionLoop e fuel (i ||| 2) { o with blockSize := v } q
      else if ← strncmp multicastText p then
        match ← multicastFields o (p + 10) with
        | none => pure none
        | some (o, q) => do
            let q ← skipValue (e - q) q
            optionLoop e fuel (i ||| 1) o q
      else pure none

/-- `opt_get_multicast` on a payload of `len` bytes behind the opcode: what it returns, or `none` if
    it does not. -/
def optGetMulticast (len : Nat) (o : Options) : Prog (Option (Int × Options)) :=
  if len > minPacket then pure (some (-1, o)) else optionLoop (2 + len) (len + 1) 0 o 2

/-- What `opt_get_multicast` returns and sets for a packet. -/
def readOptions (len : Nat) (o : Options) (body : Store) : Option (Int × Options) :=
  ((optGetMulticast len o).run body).1

/-! ## What any payload can do -/

theorem strtoul_lt (fuel : Nat) :
    ∀ {ret p : Nat} {b : Store} {v q : Nat}, ret < 2 ^ 32 →
      ((strtoul fuel ret p).run b).1 = some (v, q) → v < 2 ^ 32 := by
  induction fuel with
  | zero => intro ret p b v q _ h; cases h
  | succ fuel ih =>
    intro ret p b v q hret h
    rw [strtoul, run_readByte_bind] at h
    split at h
    · exact ih (Nat.mod_lt _ (by decide)) h
    · cases h
      exact hret

theorem multicastFields_cases {o o' : Options} {p q : Nat} {b : Store}
    (h : ((multicastFields o p).run b).1 = some (o', q)) :
    ∃ ip port master, o' = { o with multicastIp := ip, multicastPort := port, ismaster := master } := by
  rw [multicastFields, run_bind] at h
  split at h
  · cases h
  · rw [run_bind] at h
    split at h
    · cases h
    · cases h
      exact ⟨_, _, _, rfl⟩

/-- **The invariant rule for the walk.** What every option keeps holds of the result, unless it
    is 0. -/
theorem optionLoop_inv (P : Nat → Options → Prop)
    (htsize : ∀ i o v, P i o → v < 2 ^ 32 → P (if v > 0 then i ||| 4 else i) { o with filesize := v })
    (hblksize : ∀ i o, P i o → P (i ||| 2) { o with blockSize := minPacket })
    (hmulticast : ∀ i o ip port master, P i o →
      P (i ||| 1) { o with multicastIp := ip, multicastPort := port, ismaster := master })
    {e fuel : Nat} :
    ∀ {i : Nat} {o : Options} {p : Nat} {b : Store} {r : Int} {o' : Options}, P i o →
      ((optionLoop e fuel i o p).run b).1 = some (r, o') → r = 0 ∨ ∃ i' : Nat, r = i' ∧ P i' o' := by
  induction fuel with
  | zero => intro i o p b r o' _ h; cases h
  | succ fuel ih =>
    intro i o p b r o' hP h
    rw [optionLoop, run_readByte_bind] at h
    split at h
    · cases h
      split
      · exact Or.inl rfl
      · exact Or.inr ⟨i, rfl, hP⟩
    · rw [run_bind] at h
      split at h
      · rw [run_bind] at h
        split at h
        · cases h
        · next v q hv =>
            rw [run_bind] at h
            exact ih (htsize i o v hP (strtoul_lt _ (by decide) hv)) h
      · rw [run_bind] at h
        split at h
        · rw [run_bind] at h
          split at h
          · cases h
          · split at h
            · cases h
              exact Or.inl rfl
            · next v q hv hmin =>
                rw [run_bind] at h
                exact ih (not_not.mp hmin ▸ hblksize i o hP) h
        · rw [run_bind] at h
          split at h
          · rw [run_bind] at h
            split at h
            · cases h
            · next o₁ q hv =>
                obtain ⟨ip, port, master, rfl⟩ := multicastFields_cases hv
                rw [run_bind] at h
                exact ih (hmulticast i o ip port master hP) h
          · cases h

/-- A block size, once it is set, is the one the client wants. -/
theorem readOptions_blockSize {len : Nat} {o o' : Options} {b : Store} {r : Int}
    (h : readOptions len o b = some (r, o')) (hr : r ≠ 0) (hsize : o.filesize < 2 ^ 32) :
    o'.filesize < 2 ^ 32 ∧ (r = 7 ∨ o.blockSize = minPacket → o'.blockSize = minPacket) := by
  rw [readOptions, optGetMulticast] at h
  split at h
  · cases h
    exact ⟨hsize, fun hor => hor.resolve_left (by decide)⟩
  · have hinv := optionLoop_inv (fun i o₁ => o₁.filesize < 2 ^ 32 ∧
        (i.testBit 1 = true ∨ o.blockSize = minPacket → o₁.blockSize = minPacket))
      (fun i o₁ v hi hv => ⟨hv, fun hor => hi.2 (hor.imp_left (fun hb => ?_))⟩)
      (fun i o₁ hi => ⟨hi.1, fun _ => rfl⟩)
      (fun i o₁ ip port master hi => ⟨hi.1, fun hor => hi.2 (hor.imp_left (fun hb => ?_))⟩)
      ⟨hsize, fun hor => hor.resolve_left (by decide)⟩ h
    · obtain h0 | ⟨i, rfl, hi⟩ := hinv
      · exact absurd h0 hr
      · exact ⟨hi.1, fun hor => hi.2 (hor.imp_left (fun h7 => by
          obtain rfl : i = 7 := by exact_mod_cast h7
          decide))⟩
    · split at hb
      · rwa [Nat.testBit_or, show Nat.testBit 4 1 = false by decide, Bool.or_false] at hb
      · exact hb
    · rwa [Nat.testBit_or, show Nat.testBit 1 1 = false by decide, Bool.or_false] at hb

/-! ## Options as a server writes them -/

/-- An option as it is meant. -/
inductive Opt where
  | tsize (size : Nat)
  | blksize
  | multicast (ip port : Nat) (master : Bool)
  deriving DecidableEq, Repr

/-- Decimal digits for `n`. -/
structure Digits (n : Nat) (ds : List UInt8) : Prop where
  digits : ∀ d ∈ ds, isDigit d
  value : decimal 0 ds = n
  ne_nil : ds ≠ []

theorem Digits.of_all {n : Nat} {ds : List UInt8} (hall : ds.all (fun d => decide (isDigit d)) = true)
    (hvalue : decimal 0 ds = n) (hne : ds.isEmpty = false) : Digits n ds :=
  ⟨fun d hd => of_decide_eq_true (List.all_eq_true.mp hall d hd), hvalue, List.isEmpty_eq_false_iff.mp hne⟩

/-- `text` is the address `ip` in dotted decimal, `left + 1` numbers of it, behind those in `high`. -/
def Dotted : Nat → Nat → Nat → List UInt8 → Prop
  | 0, high, ip, text => ∃ v, Digits v text ∧ v ≤ 255 ∧ ip = high <<< 8 ||| v
  | left + 1, high, ip, text => ∃ v ds rest, Digits v ds ∧ v ≤ 255 ∧ text = ds ++ 46 :: rest ∧
      Dotted left (high <<< 8 ||| v) ip rest

/-- An option with a number: its name in any case, and the digits. -/
def Numbered (name : List UInt8) (n : Nat) (bs : List UInt8) : Prop :=
  ∃ name' ds, bs = name' ++ 0 :: (ds ++ [0]) ∧ name'.map upcase = name.map upcase ∧ Digits n ds

namespace Opt

/-- `bs` is the option with its value, each ended by a null. -/
def Encoded : Opt → List UInt8 → Prop
  | tsize size, bs => size < 2 ^ 32 ∧ Numbered tsizeText size bs
  | blksize, bs => Numbered Tftp.blksizeText minPacket bs
  | multicast ip port master, bs => port < 2 ^ 16 ∧ ∃ addr ds, Dotted 3 0 ip addr ∧ Digits port ds ∧
      bs = multicastText ++ addr ++ 44 :: ds ++ 44 :: [if master then 49 else 48, 0]

/-- What the option does to the options seen and set so far. -/
def apply : Opt → Nat × Options → Nat × Options
  | tsize size, (i, o) => (if size > 0 then i ||| 4 else i, { o with filesize := size })
  | blksize, (i, o) => (i ||| 2, { o with blockSize := minPacket })
  | multicast ip port master, (i, o) =>
    (i ||| 1, { o with multicastIp := ip, multicastPort := port, ismaster := master })

end Opt

/-- `bs` holds the options `opts` one after the other. -/
def Announced : List Opt → List UInt8 → Prop
  | [], bs => bs = []
  | opt :: opts, bs => ∃ first rest, bs = first ++ rest ∧ opt.Encoded first ∧ Announced opts rest

end Tftm
