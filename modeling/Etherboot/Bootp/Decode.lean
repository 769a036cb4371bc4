import Etherboot.Lib.Memory
import Etherboot.Lib.Transition

set_option autoImplicit false

/-! # The options of a BOOTP reply (`decode_rfc1533` in `core/nic.c`, block 0)

The reply is in `bootp_data`; all positions here are offsets in it. Options begin behind a cookie of four
bytes. Each is a tag, a length and that many bytes, except for the two tags without a length, PAD and END.
An Etherboot option holds options of its own, which are decoded by a second call.

The decoder is a machine that takes one option in a step. A step is a program on bytes, so that it is
known which bytes it looks at. Of the two calls that can be under way, the inner one is in `level`; the
outer one waits in `outer` with `p` still at the option that holds the inner one's options. A call that
has met an extension path asks for that file by TFTP before it returns. -/

namespace Bootp

open Memory Prog

/-! ## Tags -/

def rfc1533Pad : UInt8 := 0
def rfc1533Netmask : UInt8 := 1
def rfc1533Gateway : UInt8 := 3
def rfc1533Dns : UInt8 := 6
def rfc1533Hostname : UInt8 := 12
def rfc1533Extensionpath : UInt8 := 18
def rfc1533Vendor : UInt8 := 43
def rfc2132MsgType : UInt8 := 53
def rfc2132SrvId : UInt8 := 54
def rfc2132VendorClassId : UInt8 := 60
def rfc1533VendorMagic : UInt8 := 128
def rfc1533VendorAddparm : UInt8 := 129
def rfc1533VendorEtherbootEncap : UInt8 := 150
def rfc1533End : UInt8 := 255

def rfc1533VendorMajor : UInt8 := 0
def rfc1533Cookie : List UInt8 := [99, 130, 83, 99]
def vendorextMagic : List UInt8 := [0xe4, 0x45, 0x74, 0x68]

/-- The name that is looked for in vendor options. -/
def etherbootName : List UInt8 := [69, 116, 104, 101, 114, 98, 111, 111, 116]

/-- `bp_vend` in `bootp_data`. -/
def vendOffset : Nat := 236

/-- `sizeof(struct bootpd_t)`, with 312 bytes of options in the reply and 924 for the extension. -/
def sizeofBootpd : Nat := 236 + 312 + 924

/-- `sizeof fname` -/
def fnameSize : Nat := 64

/-! ## State -/

/-- What the code is built with. -/
structure Build where
  onlyEncapsulated : Bool
  dnsResolver : Bool
  requireVci : Bool
  pxeExport : Bool
  deriving DecidableEq, Repr

/-- The variables that options set. Texts are pointers into `bootp_data`. `names` is not in the source:
    the extension files that have been asked for. -/
structure Vars where
  netmask : Nat
  gateway : Nat
  nameserver : Nat
  dhcpReply : Nat
  dhcpServer : Nat
  hostname : Option Nat
  hostnamelen : Nat
  addparam : Option Nat
  addparamlen : Nat
  vendorextIsvalid : Nat
  vciEtherboot : Bool
  endOfRfc1533 : Option Nat
  extdata : Option Nat
  extend : Option Nat
  names : List (List UInt8)
  deriving DecidableEq, Repr

/-- The local variables of a call. -/
structure Level where
  p : Nat
  endp : Nat
  extpath : Option Nat
  deriving DecidableEq, Repr

inductive Phase where
  | walk
  | returning
  | done
  deriving DecidableEq, Repr

structure Ctl where
  level : Level
  outer : Option Level
  phase : Phase
  deriving DecidableEq, Repr

structure Decoder where
  ctl : Ctl
  vars : Vars
  deriving DecidableEq, Repr

variable (build : Build) (p : Nat) (b : Store) (c : Ctl)

/-- `in_encapsulated_options` -/
def Ctl.encapsulated : Bool := c.outer.isSome

/-! ## What an option is for -/

inductive Kind where
  | netmask
  | gateway
  | extensionpath
  | vendor
  | msgType
  | srvId
  | hostname
  | vendorMagic
  | addparm
  | etherbootEncap
  | dns
  | unknown
  deriving DecidableEq, Repr

/-- The branch that is taken for a tag. -/
def Kind.of (encapsulated : Bool) (c : UInt8) : Kind :=
  if encapsulated = false ∧ c = rfc1533Netmask then .netmask
  else if encapsulated = false ∧ c = rfc1533Gateway then .gateway
  else if c = rfc1533Extensionpath then .extensionpath
  else if build.requireVci ∧ encapsulated = false ∧ c = rfc1533Vendor then .vendor
  else if encapsulated = false ∧ c = rfc2132MsgType then .msgType
  else if encapsulated = false ∧ c = rfc2132SrvId then .srvId
  else if encapsulated = false ∧ c = rfc1533Hostname then .hostname
  else if (build.onlyEncapsulated → encapsulated) ∧ c = rfc1533VendorMagic then .vendorMagic
  else if c = rfc1533VendorAddparm then .addparm
  else if encapsulated = false ∧ c = rfc1533VendorEtherbootEncap then .etherbootEncap
  else if build.dnsResolver ∧ encapsulated = false ∧ c = rfc1533Dns then .dns
  else .unknown

/-! ## Reading -/

def readBe32 : Prog Nat := do
  let high ← readByte p
  let second ← readByte (p + 1)
  let third ← readByte (p + 2)
  let low ← readByte (p + 3)
  pure (65536 * (256 * high.toNat + second.toNat) + (256 * third.toNat + low.toNat))

/-- An identifier with the tag `c` at `p` is the one looked for. -/
def vciMatches (c : UInt8) : Prog Bool :=
  if c = rfc2132VendorClassId then memcmp (p + 2) etherbootName else pure false

/-- The loop of `find_vci_etherboot`. -/
def findVciLoop (last : Nat) : Nat → Nat → Prog Bool
  | 0, _ => pure false
  | n + 1, p =>
    if p < last then do
      let c ← readByte p
      let found ← vciMatches p c
      if found then pure true
      else if c = rfc1533End then pure false
      else do
        let len ← readByte (p + 1)
        findVciLoop last n (p + len.toNat + 2)
    else pure false

/-- `find_vci_etherboot`; 255 bytes hold at most 128 options. -/
def findVciEtherboot : Prog Bool := do
  let count ← readByte p
  findVciLoop (p + 1 + count.toNat) 128 (p + 1)

/-! ## One option -/

/-- An address option that is checked for its length. -/
def readAddress (p old : Nat) : Prog Nat := do
  let n ← readByte (p + 1)
  if 4 ≤ n.toNat then readBe32 (p + 2) else pure old

/-- The magic option is checked. -/
def readMagic : Prog Bool := do
  let n ← readByte (p + 1)
  if 6 ≤ n.toNat then memcmp (p + 2) (vendorextMagic ++ [rfc1533VendorMajor]) else pure false

/-- What the option at `p` sets. -/
def act (v : Vars) : Kind → Prog Vars
  | .netmask => do
      let a ← readBe32 (p + 2)
      pure { v with netmask := a }
  | .gateway => do
      let a ← readAddress p v.gateway
      pure { v with gateway := a }
  | .vendor => do
      let found ← findVciEtherboot (p + 1)
      pure { v with vciEtherboot := found }
  | .msgType => do
      let c ← readByte (p + 2)
      pure { v with dhcpReply := c.toNat }
  | .srvId => do
      let a ← readBe32 (p + 2)
      pure { v with dhcpServer := a }
  | .hostname => do
      let n ← readByte (p + 1)
      pure { v with hostname := some (p + 2), hostnamelen := n.toNat }
  | .vendorMagic => do
      let valid ← readMagic p
      pure (if valid then { v with vendorextIsvalid := v.vendorextIsvalid + 1 } else v)
  | .addparm => do
      let n ← readByte (p + 1)
      pure { v with addparam := some (p + 2), addparamlen := n.toNat }
  | .dns => do
      let a ← readAddress p v.nameserver
      pure { v with nameserver := a }
  | .extensionpath | .etherbootEncap | .unknown => pure v

/-- The next option, if this one has `n` bytes: the first one inside, or the one behind. -/
def Ctl.pass (k : Kind) (n : Nat) : Ctl :=
  let p := c.level.p
  if k = .etherbootEncap then { c with level := ⟨p + 2, p + 2 + n, none⟩, outer := some c.level }
  else
    { c with level := { c.level with
        p := p + n + 2, extpath := if k = .extensionpath then some p else c.level.extpath } }

namespace Decoder

def option (build : Build) (d : Decoder) (c : UInt8) : Prog Decoder := do
  let p := d.ctl.level.p
  let k := Kind.of build d.ctl.encapsulated c
  let v ← act p d.vars k
  let n ← readByte (p + 1)
  pure ⟨d.ctl.pass k n.toNat, v⟩

/-- Behind the options: the file at the extension path is asked for. -/
def finish (d : Decoder) : Prog Decoder := do
  let v := { d.vars with extdata := some d.ctl.level.endp, extend := some d.ctl.level.endp }
  let c := { d.ctl with phase := .returning }
  match d.ctl.level.extpath with
  | none => pure ⟨c, v⟩
  | some x => do
      let n ← readByte (x + 1)
      let name ← readBytes (x + 2) n.toNat
      pure ⟨c, { v with names := v.names ++ [name] }⟩

/-- The call returns, to the call around it if there is one. -/
def resume (d : Decoder) : Prog Decoder :=
  match d.ctl.outer with
  | none => pure { d with ctl := { d.ctl with phase := .done } }
  | some o => do
      let n ← readByte (o.p + 1)
      pure { d with ctl := ⟨{ o with p := o.p + n.toNat + 2 }, none, .walk⟩ }

def step (build : Build) (d : Decoder) : Prog Decoder :=
  let p := d.ctl.level.p
  match d.ctl.phase with
  | .done => pure d
  | .returning => d.resume
  | .walk =>
    if p < d.ctl.level.endp then do
      let c ← readByte p
      if c = rfc1533Pad then pure { d with ctl := { d.ctl with level := { d.ctl.level with p := p + 1 } } }
      else if c = rfc1533End then
        pure ⟨{ d.ctl with level := { d.ctl.level with endp := p } },
          { d.vars with endOfRfc1533 := some p }⟩
      else d.option build c
    else d.finish

/-- The first call for a reply: without the cookie it returns at once. The end is reckoned from behind the
    cookie, with the length of all that begins in front of it. -/
def start (v : Vars) : Prog Decoder := do
  let v := { v with
    vciEtherboot := false, endOfRfc1533 := none, vendorextIsvalid := 0, addparam := none, addparamlen := 0 }
  let p := vendOffset + 4
  let level : Level := ⟨p, p + (312 + 924), none⟩
  let cookie ← memcmp vendOffset rfc1533Cookie
  pure ⟨⟨level, none, if cookie then .walk else .done⟩, v⟩

end Decoder

/-! ## What a step does

A step only looks at bytes. Where the decoder goes is `Ctl.next`, what it sets is `Vars.next`; neither
asks for the other. -/

@[simp] theorem run_readBe32 : (readBe32 p).run b = (be32 b p, b) := rfl

@[simp] theorem within_readBe32 {p n : Nat} {b : Store} : (readBe32 p).Within n b ↔ p + 4 ≤ n := by
  simp only [readBe32, within_bind, within_readByte, within_pure, and_true]
  omega

/-- The address an option gives. -/
def addressAt (p old : Nat) : Nat := if 4 ≤ (b (p + 1)).toNat then be32 b (p + 2) else old

@[simp] theorem run_readAddress (p old : Nat) (b : Store) :
    (readAddress p old).run b = (addressAt b p old, b) := by
  rw [readAddress, run_readByte_bind, run_ite, run_readBe32, run_pure, addressAt]
  split <;> rfl

theorem run_findVciLoop_snd (last n p : Nat) (b : Store) : ((findVciLoop last n p).run b).2 = b := by
  induction n generalizing p with
  | zero => rfl
  | succ n ih =>
    rw [findVciLoop, run_ite]
    split
    · rw [run_readByte_bind, run_bind]
      have hfound : ((vciMatches p (b p)).run b).2 = b := by
        rw [vciMatches, run_ite, run_memcmp]
        split <;> rfl
      rw [hfound]
      split
      · rfl
      · split
        · rfl
        · rw [run_readByte_bind, ih]
    · rfl

/-- The vendor option with its length at `p` names Etherboot. -/
def hasVci (p : Nat) : Bool := ((findVciEtherboot p).run b).1

@[simp] theorem run_findVciEtherboot :
    (findVciEtherboot p).run b = (hasVci b p, b) := by
  refine Prod.ext rfl ?_
  rw [findVciEtherboot, run_readByte_bind, run_findVciLoop_snd]

/-- The option at `p` is the magic one. -/
def IsMagic (p : Nat) : Prop :=
  6 ≤ (b (p + 1)).toNat ∧ b.Has (p + 2) (vendorextMagic ++ [rfc1533VendorMajor])
  deriving Decidable

/-- What the option at `p` sets. -/
def Vars.take (p : Nat) (v : Vars) : Kind → Vars
  | .netmask => { v with netmask := be32 b (p + 2) }
  | .gateway => { v with gateway := addressAt b p v.gateway }
  | .vendor => { v with vciEtherboot := hasVci b (p + 1) }
  | .msgType => { v with dhcpReply := (b (p + 2)).toNat }
  | .srvId => { v with dhcpServer := be32 b (p + 2) }
  | .hostname => { v with hostname := some (p + 2), hostnamelen := (b (p + 1)).toNat }
  | .vendorMagic => if IsMagic b p then { v with vendorextIsvalid := v.vendorextIsvalid + 1 } else v
  | .addparm => { v with addparam := some (p + 2), addparamlen := (b (p + 1)).toNat }
  | .dns => { v with nameserver := addressAt b p v.nameserver }
  | .extensionpath | .etherbootEncap | .unknown => v

@[simp] theorem run_readMagic : (readMagic p).run b = (decide (IsMagic b p), b) := by
  rw [readMagic, run_readByte_bind, run_ite, run_memcmp]
  by_cases hlen : 6 ≤ (b (p + 1)).toNat <;> simp [hlen, IsMagic]

@[simp] theorem run_act (v : Vars) (k : Kind) (b : Store) :
    (act p v k).run b = (v.take b p k, b) := by
  cases k <;> simp [act, Vars.take]

/-- Where the decoder goes from here. -/
def Ctl.next : Ctl :=
  let p := c.level.p
  match c.phase with
  | .done => c
  | .returning =>
    match c.outer with
    | none => { c with phase := .done }
    | some o => ⟨{ o with p := o.p + (b (o.p + 1)).toNat + 2 }, none, .walk⟩
  | .walk =>
    if p < c.level.endp then
      if b p = rfc1533Pad then { c with level := { c.level with p := p + 1 } }
      else if b p = rfc1533End then { c with level := { c.level with endp := p } }
      else c.pass (Kind.of build c.encapsulated (b p)) (b (p + 1)).toNat
    else { c with phase := .returning }

/-- The name of the extension file at `x`. -/
def nameAt (x : Nat) : List UInt8 := b.slice (x + 2) (b (x + 1)).toNat

/-- What is set on the way. -/
def Vars.next (v : Vars) : Vars :=
  let p := c.level.p
  match c.phase with
  | .done | .returning => v
  | .walk =>
    if p < c.level.endp then
      if b p = rfc1533Pad then v
      else if b p = rfc1533End then { v with endOfRfc1533 := some p }
      else v.take b p (Kind.of build c.encapsulated (b p))
    else
      { v with
        extdata := some c.level.endp, extend := some c.level.endp,
        names := v.names ++ (c.level.extpath.map (nameAt b)).toList }

theorem run_step (d : Decoder) (b : Store) :
    (d.step build).run b = (⟨d.ctl.next build b, d.vars.next build b d.ctl⟩, b) := by
  obtain ⟨⟨⟨p, endp, extpath⟩, outer, phase⟩, v⟩ := d
  cases phase with
  | done => rfl
  | returning => cases outer <;> rfl
  | walk =>
    simp only [Decoder.step, Ctl.next, Vars.next, run_ite, run_readByte_bind]
    split
    · split
      · rfl
      · split
        · rfl
        · simp only [Decoder.option, run_bind, run_act, run_readByte, run_pure]
    · cases extpath with
      | none => simp [Decoder.finish]
      | some x => simp [Decoder.finish, nameAt]

end Bootp
