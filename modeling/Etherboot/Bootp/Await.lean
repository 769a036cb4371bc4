import Etherboot.Bootp.Safety
import Etherboot.Bootp.Walk
import Etherboot.Net.AwaitReply

set_option autoImplicit false

/-! # Replies that are rejected (`await_bootp` in `core/nic.c`)

`await_bootp` looks at a frame, takes the configuration from it and says whether it was the reply awaited. Most
of its checks come before it takes anything. In a build that requires Etherboot to be named in the reply, one
more comes at the end, when the options have been decoded and everything has been taken. `noTrace_iff` says
that this check alone leaves traces of a reply that is rejected.

The extension files that the decoder asks for are transfers as in `State.step`. With the PXE options, the
decoder is also called for the contents of a vendor option, to fill a boot menu; what such a call does beside
is left open in the same way. -/

namespace Bootp

open Memory
open Net (ethHlen sizeofIphdr sizeofUdphdr)

def bootpReply : UInt8 := 2
def pxeBootClient : Nat := 4011
def bootpVendorLen : Nat := 64

def broadcast : List UInt8 := [0xff, 0xff, 0xff, 0xff, 0xff, 0xff]
def zeroNode : List UInt8 := [0, 0, 0, 0, 0, 0]
def pxeclientName : List UInt8 := [80, 88, 69, 67, 108, 105, 101, 110, 116]

/-- `bp_file` in `bootp_data`. -/
def fileOffset : Nat := 108
def fileSize : Nat := 128

/-- The builds that have `await_bootp`. Without support for DHCP the vendor class identifier is not defined, so
    that neither check of it compiles. -/
structure Config extends Build where
  dhcp : Bool
  pxeStrict : Bool
  vci_dhcp : requireVci = true → dhcp = true
  strict_dhcp : pxeStrict = true → dhcp = true

/-! ## State -/

/-- The hardware addresses in `arptable`. -/
structure Nodes where
  client : List UInt8
  server : List UInt8
  gateway : List UInt8
  nameserver : List UInt8
  proxydhcp : List UInt8
  deriving DecidableEq, Repr

/-- The variables of `nic.c`. The addresses of the gateway and the name server in `arptable` are among the
    variables that options set. -/
structure Station where
  client : Nat
  server : Nat
  proxydhcp : Nat
  nodes : Nodes
  vars : Vars
  dhcpAddr : Nat
  bootpData : Store
  sport : Nat
  xid : Nat

/-- `nic.packet`, with the bytes behind the packet; `udp` if it has a UDP header. -/
structure Frame where
  packet : Store
  packetlen : Nat
  udp : Bool

namespace Frame

variable (f : Frame)

/-- `udp->dest` -/
def dest : Nat := be16 f.packet (ethHlen + sizeofIphdr + 2)

/-- `bootpreply` -/
def reply : Store := fun i => f.packet (ethHlen + sizeofIphdr + sizeofUdphdr + i)

def op : UInt8 := f.reply 0
def xid : Nat := be32 f.reply 4
def yiaddr : Nat := be32 f.reply 16
def siaddr : Nat := be32 f.reply 20
def giaddr : Nat := be32 f.reply 24
def hwaddr : List UInt8 := f.reply.slice 28 6

end Frame

/-- The length that a packet has to have: `sizeof(struct bootp_t)` without the options of DHCP. -/
def Config.minLength (cfg : Config) : Nat :=
  ethHlen + sizeofIphdr + sizeofUdphdr + (if cfg.dhcp then vendOffset else vendOffset + bootpVendorLen)

/-! ## Decoding -/

/-- What a transfer does: the bytes and variables that the decoder leaves, and hardware addresses that are
    learned on the way. -/
structure Download extends Transfer where
  nodes : Nodes → Nodes

structure Decoding where
  state : State
  nodes : Nodes

variable (cfg : Config) (ts : Nat → Download) (f : Frame) (g : Station)

/-- The step asks for a file, or it calls the decoder for PXE options. -/
def Config.Calls (s : State) : Prop :=
  s.decoder.ctl.Asks ∨
    (cfg.pxeStrict ∧ cfg.requireVci = false ∧ s.decoder.ctl.phase = .walk ∧
      s.decoder.ctl.level.p < s.decoder.ctl.level.endp ∧ s.decoder.ctl.outer = none ∧
      s.data s.decoder.ctl.level.p = rfc1533Vendor)
  deriving Decidable

def Decoding.step (cfg : Config) (d : Decoding) (t : Download) : Decoding :=
  let r := (d.state.decoder.step cfg.toBuild).run d.state.data
  if cfg.Calls d.state then ⟨⟨{ r.1 with vars := t.vars r.1.vars }, t.data r.2⟩, t.nodes d.nodes⟩
  else ⟨⟨r.1, r.2⟩, d.nodes⟩

/-- Steps one after the other; `ts` is what happens in those that call for something. -/
def Decoding.run (cfg : Config) : Nat → (Nat → Download) → Decoding → Decoding
  | 0, _, d => d
  | n + 1, ts, d => run cfg n (fun i => ts (i + 1)) (d.step cfg (ts 0))

/-- `decode_rfc1533(bootp_data.bootp_reply.bp_vend, 0, ..., 1)`. The length is the same in all builds. Without
    support for DHCP, `dhcp_reply` and `dhcp_server` do not exist. -/
def Station.decode : Station :=
  let d := Decoding.run cfg maxSteps ts ⟨State.start g.bootpData g.vars, g.nodes⟩
  let v := d.state.decoder.vars
  { g with
    nodes := d.nodes
    bootpData := d.state.data
    vars := if cfg.dhcp then v else { v with dhcpReply := g.vars.dhcpReply, dhcpServer := g.vars.dhcpServer } }

/-! ## Awaiting a reply -/

/-- `find_vci_pxeclient`: the options up to END, wherever it is. A search that has gone through more bytes than
    there are addresses never ends. -/
def findVciPxeclient : Nat → Store → Nat → Option Bool
  | 0, _, _ => none
  | n + 1, b, p =>
    if b p = rfc1533End then some false
    else if b p = rfc2132VendorClassId ∧ b.Has (p + 2) pxeclientName then some true
    else findVciPxeclient n b (p + (b (p + 1)).toNat + 2)

def addressLimit : Nat := 2 ^ 32

/-- `default_netmask` -/
def defaultNetmask (client : Nat) : Nat :=
  let net := client / 2 ^ 24
  if net ≤ 127 then 0xff000000 else if net < 192 then 0xffff0000 else 0xffffff00

/-- `memcpy(&bootp_data, bootpreply, sizeof(struct bootpd_t))` -/
def Station.copyReply (f : Frame) : Station :=
  { g with bootpData := fun i => if i < sizeofBootpd then f.reply i else g.bootpData i }

/-- `memcpy(KERNEL_BUF, bootpreply->bp_file, sizeof(KERNEL_BUF))` -/
def Station.copyFile (f : Frame) : Station :=
  { g with bootpData := g.bootpData.splice fileOffset (f.reply.slice fileOffset fileSize) }

/-- The addresses of the server and the gateway are taken, and their hardware addresses forgotten. -/
def Station.takeServers (f : Frame) : Station :=
  let g := if f.siaddr ≠ 0 then { g with server := f.siaddr, nodes := { g.nodes with server := zeroNode } } else g
  if f.giaddr ≠ 0 then
    { g with vars := { g.vars with gateway := f.giaddr }, nodes := { g.nodes with gateway := zeroNode } }
  else g

/-- The address in an offer is taken, and the reply with it. -/
def Station.takeAddress : Station :=
  let g := { g with client := f.yiaddr, dhcpAddr := if cfg.dhcp then f.yiaddr else g.dhcpAddr }
  let g := { g with vars := { g.vars with netmask := defaultNetmask g.client } }
  g.copyReply f

/-- An offer without an address is from a ProxyDHCP server, in builds that know them. -/
def Station.takeOffer : Station :=
  if f.yiaddr ≠ 0 then (g.takeAddress cfg f).decode cfg ts
  else if cfg.pxeExport then
    let g := { g with proxydhcp := f.siaddr, nodes := { g.nodes with proxydhcp := zeroNode } }
    g.copyFile f
  else g

/-- `await_bootp`: what it returns, if it does, and what it leaves. -/
def awaitBootp : Option (Bool × Station) :=
  if f.udp = false then some (false, g)
  else if f.packetlen < cfg.minLength then some (false, g)
  else if f.dest ≠ g.sport then some (false, g)
  else if f.op ≠ bootpReply then some (false, g)
  else if f.xid ≠ g.xid then some (false, g)
  else if cfg.pxeStrict ∧ g.sport = pxeBootClient then
    (findVciPxeclient addressLimit f.reply (vendOffset + 4)).map fun found =>
      if found then (true, (g.copyReply f).copyFile f) else (false, g)
  else if f.siaddr = 0 then some (false, g)
  else if f.hwaddr ≠ broadcast ∧ f.hwaddr ≠ g.nodes.client then some (false, g)
  else
    let g := (g.takeServers f).takeOffer cfg ts f
    if cfg.requireVci ∧ g.vars.vciEtherboot = false then some (false, g) else some (true, g)

/-! ## The decoder comes to an end -/

theorem Decoding.step_of_done {cfg : Config} {d : Decoding} (h : d.state.decoder.ctl.phase = .done)
    (t : Download) : d.step cfg t = d := by
  have hcalls : ¬ cfg.Calls d.state := by
    rintro (hasks | ⟨-, -, hwalk, -⟩)
    · cases h.symm.trans hasks.1
    · cases h.symm.trans hwalk
  rw [Decoding.step, run_step, if_neg hcalls, Ctl.next_of_done h, Vars.next, h]

theorem Decoding.run_of_done {cfg : Config} {d : Decoding} (h : d.state.decoder.ctl.phase = .done) (n : Nat) :
    ∀ ts : Nat → Download, d.run cfg n ts = d := by
  induction n with
  | zero => exact fun _ => rfl
  | succ n ih =>
    intro ts
    rw [Decoding.run, step_of_done h, ih]

theorem start_ctl (b : Store) (v : Vars) :
    (State.start b v).decoder.ctl = ⟨⟨vendOffset + 4, vendOffset + 4 + (312 + 924), none⟩, none,
      if b.Has vendOffset rfc1533Cookie then .walk else .done⟩ := by
  rw [State.start, Decoder.start, Prog.run_bind, Prog.run_memcmp]
  simp

/-! ## Traces -/

/-- What is looked at: `arptable`, with the address and the hardware address of each entry, `bootp_data`,
    `netmask` and the variables of DHCP. -/
structure Watched where
  arptable : List (Nat × List UInt8)
  bootpData : Store
  netmask : Nat
  dhcpReply : Nat
  dhcpServer : Nat
  dhcpAddr : Nat

def Station.watched : Watched where
  arptable := [(g.client, g.nodes.client), (g.server, g.nodes.server), (g.vars.gateway, g.nodes.gateway),
    (g.vars.nameserver, g.nodes.nameserver), (g.proxydhcp, g.nodes.proxydhcp)]
  bootpData := g.bootpData
  netmask := g.vars.netmask
  dhcpReply := g.vars.dhcpReply
  dhcpServer := g.vars.dhcpServer
  dhcpAddr := g.dhcpAddr

/-- **A reply that is rejected leaves no trace.** -/
def NoTrace : Prop :=
  ∀ g', awaitBootp cfg ts f g = some (false, g') → g'.watched = g.watched

/-- The frame passes the checks that come before anything is taken from it. -/
@[mk_iff] structure Admitted : Prop where
  udp : f.udp = true
  length : cfg.minLength ≤ f.packetlen
  dest : f.dest = g.sport
  op : f.op = bootpReply
  xid : f.xid = g.xid
  notPxe : ¬ (cfg.pxeStrict ∧ g.sport = pxeBootClient)
  siaddr : f.siaddr ≠ 0
  hwaddr : f.hwaddr = broadcast ∨ f.hwaddr = g.nodes.client

instance (cfg : Config) (f : Frame) (g : Station) : Decidable (Admitted cfg f g) :=
  decidable_of_iff' _ (admitted_iff ..)

/-- `decode_rfc1533` finds Etherboot named in the reply: in its last vendor option, or that of an extension
    file. An offer without an address is not decoded: for such a one it is the last reply that was. -/
def Named : Prop :=
  if f.yiaddr ≠ 0 then (((g.takeServers f).takeAddress cfg f).decode cfg ts).vars.vciEtherboot = true
  else g.vars.vciEtherboot = true

section Reply

variable {cfg : Config} {ts : Nat → Download} {f : Frame} {g : Station}

theorem kept_of_some {g' : Station} (h : some (false, g) = some (false, g')) : g' = g :=
  (congrArg Prod.snd (Option.some.inj h)).symm

theorem awaitBootp_of_not_admitted (h : ¬ Admitted cfg f g) {g' : Station}
    (hret : awaitBootp cfg ts f g = some (false, g')) : g' = g := by
  unfold awaitBootp at hret
  by_cases hpxe : cfg.pxeStrict ∧ g.sport = pxeBootClient
  · split_ifs at hret
    all_goals first | exact kept_of_some hret | skip
    obtain ⟨found, -, hfound⟩ := Option.map_eq_some_iff.mp hret
    cases found with
    | false => exact (congrArg Prod.snd hfound).symm
    | true => cases congrArg Prod.fst hfound
  · split_ifs at hret with hudp hlen hdest hop hxid hsiaddr hhw
    all_goals first | exact kept_of_some hret | skip
    all_goals
      refine absurd ⟨?_, ?_, ?_, ?_, ?_, hpxe, hsiaddr, ?_⟩ h
      · exact Bool.eq_true_of_not_eq_false hudp
      · exact Nat.not_lt.mp hlen
      · exact not_not.mp hdest
      · exact not_not.mp hop
      · exact not_not.mp hxid
      · tauto

theorem awaitBootp_of_admitted (ts : Nat → Download) (h : Admitted cfg f g) :
    awaitBootp cfg ts f g =
      if cfg.requireVci ∧ ((g.takeServers f).takeOffer cfg ts f).vars.vciEtherboot = false then
        some (false, (g.takeServers f).takeOffer cfg ts f)
      else some (true, (g.takeServers f).takeOffer cfg ts f) := by
  have hudp : ¬ f.udp = false := by
    rw [h.udp]
    decide
  have hhw : ¬ (f.hwaddr ≠ broadcast ∧ f.hwaddr ≠ g.nodes.client) := by
    rintro ⟨hbroad, hnode⟩
    exact h.hwaddr.elim hbroad hnode
  rw [awaitBootp, if_neg hudp, if_neg (Nat.not_lt.mpr h.length), if_neg (not_not.mpr h.dest),
    if_neg (not_not.mpr h.op), if_neg (not_not.mpr h.xid), if_neg h.notPxe, if_neg h.siaddr, if_neg hhw]

theorem takeServers_server (h : f.siaddr ≠ 0) : (g.takeServers f).server = f.siaddr := by
  rw [Station.takeServers, if_pos h]
  split <;> rfl

theorem takeServers_vci : (g.takeServers f).vars.vciEtherboot = g.vars.vciEtherboot := by
  unfold Station.takeServers
  split_ifs <;> rfl

/-- Decoding the options does not change the address of the server, nor does anything else in an offer. -/
theorem takeOffer_server : (g.takeOffer cfg ts f).server = g.server := by
  unfold Station.takeOffer
  split_ifs <;> rfl

theorem takeOffer_named :
    ((g.takeServers f).takeOffer cfg ts f).vars.vciEtherboot = false ↔ ¬ Named cfg ts f g := by
  rw [Bool.eq_false_iff, Station.takeOffer, Named]
  by_cases hyiaddr : f.yiaddr ≠ 0
  · rw [if_pos hyiaddr, if_pos hyiaddr]
  · rw [if_neg hyiaddr, if_neg hyiaddr, ← takeServers_vci (f := f) (g := g)]
    split <;> rfl

/-- The same variables, with another address for the server. -/
def Station.knowing (g : Station) (server : Nat) : Station := { g with server := server }

theorem admitted_knowing (a : Nat) : Admitted cfg f (g.knowing a) ↔ Admitted cfg f g := by
  constructor
  · intro h
    exact ⟨h.udp, h.length, h.dest, h.op, h.xid, h.notPxe, h.siaddr, h.hwaddr⟩
  · intro h
    exact ⟨h.udp, h.length, h.dest, h.op, h.xid, h.notPxe, h.siaddr, h.hwaddr⟩

theorem decode_vars_congr {g g' : Station} (hdata : g.bootpData = g'.bootpData) (hvars : g.vars = g'.vars)
    (hnodes : g.nodes = g'.nodes) : (g.decode cfg ts).vars = (g'.decode cfg ts).vars := by
  simp only [Station.decode, hdata, hvars, hnodes]

/-- What is taken from the reply does not depend on the server known before. -/
theorem takeAddress_knowing (a : Nat) :
    (((g.knowing a).takeServers f).takeAddress cfg f).bootpData = ((g.takeServers f).takeAddress cfg f).bootpData ∧
    (((g.knowing a).takeServers f).takeAddress cfg f).vars = ((g.takeServers f).takeAddress cfg f).vars ∧
    (((g.knowing a).takeServers f).takeAddress cfg f).nodes = ((g.takeServers f).takeAddress cfg f).nodes := by
  unfold Station.takeServers Station.knowing
  split_ifs <;> exact ⟨rfl, rfl, rfl⟩

theorem named_knowing (a : Nat) : Named cfg ts f (g.knowing a) ↔ Named cfg ts f g := by
  obtain ⟨hdata, hvars, hnodes⟩ := @takeAddress_knowing cfg f g a
  unfold Named
  rw [decode_vars_congr hdata hvars hnodes]
  rfl

/-- **The one check that leaves traces.** Whatever server was known before, a reply that is rejected leaves no
    trace, unless the build requires Etherboot to be named and the frame passes all other checks. -/
theorem noTrace_iff (cfg : Config) (ts : Nat → Download) (f : Frame) (g : Station) :
    (∀ a, NoTrace cfg ts f (g.knowing a)) ↔
      ¬ (cfg.requireVci = true ∧ Admitted cfg f g ∧ ¬ Named cfg ts f g) := by
  constructor
  · rintro h ⟨hvci, hadm, hnamed⟩
    -- a server that is not the one in the reply is forgotten
    have hadm' := (admitted_knowing (f.siaddr + 1)).mpr hadm
    have hnamed' := takeOffer_named.mpr (fun hn => hnamed ((named_knowing (f.siaddr + 1)).mp hn))
    have hret := awaitBootp_of_admitted ts hadm'
    rw [if_pos ⟨hvci, hnamed'⟩] at hret
    have harp := congrArg Watched.arptable (h (f.siaddr + 1) _ hret)
    have hserver := congrArg (fun t => (t[1]?).map Prod.fst) harp
    have hsame : f.siaddr = f.siaddr + 1 := by
      have := Option.some.inj hserver
      rw [takeOffer_server, takeServers_server hadm.siaddr] at this
      exact this
    omega
  · intro h a g' hret
    by_cases hadm : Admitted cfg f (g.knowing a)
    · rw [awaitBootp_of_admitted ts hadm] at hret
      split at hret
      · rename_i hlate
        exact absurd ⟨hlate.1, (admitted_knowing a).mp hadm,
          fun hn => takeOffer_named.mp hlate.2 ((named_knowing a).mpr hn)⟩ h
      · cases congrArg Prod.fst (Option.some.inj hret)
    · rw [awaitBootp_of_not_admitted hadm hret]

end Reply

/-! ## A reply from a plain BOOTP server -/

def vciBuild : Config where
  onlyEncapsulated := true
  dnsResolver := false
  requireVci := true
  pxeExport := false
  dhcp := true
  pxeStrict := false
  vci_dhcp := fun _ => rfl
  strict_dhcp := fun _ => rfl

/-- The server 10.0.0.1 gives out the address 10.0.0.5, with no options behind. -/
def plainReply : Frame where
  packet := (((Store.splice (fun _ => 0) 36 [0, 68]).splice 42 [2, 1, 6, 0, 0, 0, 0, 7]).splice 58
    [10, 0, 0, 5, 10, 0, 0, 1]).splice 70 [2, 0, 0, 0, 0, 9]
  packetlen := 342
  udp := true

/-- The client has asked, and knows nothing yet. -/
def asking : Station where
  client := 0
  server := 0
  proxydhcp := 0
  nodes := ⟨[2, 0, 0, 0, 0, 9], zeroNode, zeroNode, zeroNode, zeroNode⟩
  vars := noVars
  dhcpAddr := 0
  bootpData := fun _ => 0
  sport := 68
  xid := 7

def noDownload : Download := ⟨noTransfer, id⟩

theorem plainReply_leaves_trace : ¬ NoTrace vciBuild (fun _ => noDownload) plainReply asking := by
  intro h
  have hadm : Admitted vciBuild plainReply asking := by
    constructor
    all_goals decide +kernel
  have hcookie : ¬ ((asking.takeServers plainReply).takeAddress vciBuild plainReply).bootpData.Has vendOffset
      rfc1533Cookie := by
    decide +kernel
  have hyiaddr : plainReply.yiaddr ≠ 0 := by decide +kernel
  have hnamed : ¬ Named vciBuild (fun _ => noDownload) plainReply asking := by
    rw [Named, if_pos hyiaddr, Station.decode, Decoding.run_of_done]
    · decide +kernel
    · rw [start_ctl, if_neg hcookie]
  have hret := awaitBootp_of_admitted (fun _ => noDownload) hadm
  rw [if_pos ⟨rfl, takeOffer_named.mpr hnamed⟩] at hret
  have haddr := congrArg Watched.dhcpAddr (h _ hret)
  exact hyiaddr haddr

end Bootp
