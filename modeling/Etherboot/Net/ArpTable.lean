import Etherboot.Boot.Loadkernel
import Etherboot.Bootp.Await
import Etherboot.Lib.Transition

set_option autoImplicit false

/-! # The ARP table

`arptable` has an entry for each host that the client talks to: the address, which comes from replies, options,
URLs and calls of an image, and the hardware address, which is zero until it has been asked for. `ip_transmit`
looks up the host that a datagram goes to next and asks for its hardware address if it is zero.

An entry that gets another address has to lose its hardware address. Two of the assignments in the source do
not see to that: a URL changes the server, an option the gateway (or the name server). `coherent_of_keeps` says
that nothing else goes wrong.

The state is that of `await_bootp`. `learned` is not in the source: the address for which the hardware address of
an entry was received. -/

namespace Arp

open Bootp

inductive Entry where
  | client
  | server
  | gateway
  | nameserver
  | proxydhcp
  deriving DecidableEq, Repr

variable (cfg : Config) (g : Station) (n : List UInt8)

/-- `arptable[i].ipaddr` -/
def ipaddr : Entry → Nat
  | .client => g.client
  | .server => g.server
  | .gateway => g.vars.gateway
  | .nameserver => g.vars.nameserver
  | .proxydhcp => g.proxydhcp

/-- `arptable[i].node` -/
def node : Entry → List UInt8
  | .client => g.nodes.client
  | .server => g.nodes.server
  | .gateway => g.nodes.gateway
  | .nameserver => g.nodes.nameserver
  | .proxydhcp => g.nodes.proxydhcp

def setNode : Entry → Station
  | .client => { g with nodes := { g.nodes with client := n } }
  | .server => { g with nodes := { g.nodes with server := n } }
  | .gateway => { g with nodes := { g.nodes with gateway := n } }
  | .nameserver => { g with nodes := { g.nodes with nameserver := n } }
  | .proxydhcp => { g with nodes := { g.nodes with proxydhcp := n } }

/-- The entries that the build has, in their order. -/
def entries : List Entry :=
  [.client, .server, .gateway] ++ (if cfg.dnsResolver then [.nameserver] else []) ++
    (if cfg.pxeExport then [.proxydhcp] else [])

def IsZero : Prop := ∀ c ∈ n, c = 0

instance (n : List UInt8) : Decidable (IsZero n) := List.decidableBAll _ n

theorem isZero_zeroNode : IsZero zeroNode := by decide

/-! ## Sending -/

def ipBroadcast : Nat := 0xffffffff

/-- `(destip & MULTICAST_MASK) == MULTICAST_NETWORK` -/
def IsMulticast (destip : Nat) : Prop := destip &&& 0xf0000000 = 0xe0000000
  deriving Decidable

/-- The host that a datagram goes to next: the gateway, if the destination is in another network. -/
def nextHop (destip : Nat) : Nat :=
  if destip &&& g.vars.netmask ≠ g.client &&& g.vars.netmask ∧ g.vars.gateway ≠ 0 then g.vars.gateway else destip

/-- The entry that the datagram is sent by; `none` if it is a broadcast or the host has no entry. -/
def route (multicast : Bool) (g : Station) (destip : Nat) : Option Entry :=
  if destip = ipBroadcast then none
  else if multicast ∧ IsMulticast destip then none
  else (entries cfg).find? fun i => decide (ipaddr g i = nextHop g destip)

/-- A datagram to one host: the entry and the hardware address it is sent by, and the address that the hardware
    address was learned for. -/
structure Datagram where
  entry : Entry
  node : List UInt8
  nextHop : Nat
  learned : Option Nat
  deriving DecidableEq, Repr

/-! ## The machine -/

/-- `pending` is the entry that `ip_transmit` waits for, with the address it has asked for; `sent` is the datagram
    that the last step has sent. -/
structure Machine where
  station : Station
  learned : Entry → Option Nat
  pending : Option (Entry × Nat)
  sent : Option Datagram

inductive Event where
  | round
  | reply (f : Frame)
  | option (data : Store) (p : Nat) (kind : Kind)
  | load (build : Loadkernel.Build) (fname : List UInt8)
  | tftpOpen (serverIPAddress : Nat)
  | slam (serverIp : Nat)
  | bootItem (ip : Nat)
  | udpOpen (srcIp : Nat)
  | transmit (destip : Nat)
  | arpReply (sipaddr : Nat) (shwaddr : List UInt8)
  | arpTimeout

/-- A round of `bootp` begins: the table is cleared, but for the client's own hardware address. -/
def beginRound : Station :=
  { g with
    client := 0, server := 0, proxydhcp := 0
    vars := { g.vars with gateway := 0, nameserver := 0 }
    nodes := ⟨g.nodes.client, zeroNode, zeroNode, zeroNode, zeroNode⟩ }

/-- What `await_bootp` takes from a reply before its options are decoded. -/
def takeReply (f : Frame) (g : Station) : Station :=
  if Admitted cfg f g then
    let g := g.takeServers f
    if f.yiaddr ≠ 0 then g.takeAddress cfg f
    else if cfg.pxeExport then
      Station.copyFile { g with proxydhcp := f.siaddr, nodes := { g.nodes with proxydhcp := zeroNode } } f
    else g
  else g

def changeServer (ip : Nat) : Station :=
  { g with server := ip, nodes := { g.nodes with server := zeroNode } }

/-- The assignments to the table, beside those of `ip_transmit`. -/
def assign : Event → Station
  | .round => beginRound g
  | .reply f => takeReply cfg f g
  | .option data p kind => { g with vars := g.vars.take data p kind }
  | .load build fname => { g with server := (Loadkernel.loadkernel build g.server fname).server }
  | .tftpOpen ip => if ip ≠ 0 ∧ ip ≠ g.server then changeServer g ip else g
  | .slam ip => if g.server ≠ ip then changeServer g ip else g
  | .bootItem ip => changeServer g ip
  | .udpOpen ip => if ip ≠ 0 ∧ ip ≠ g.client then { g with client := ip } else g
  | .transmit _ | .arpReply _ _ | .arpTimeout => g

namespace Machine

/-- `ip_transmit`, up to the request for a hardware address. -/
def transmit (cfg : Config) (multicast : Bool) (m : Machine) (destip : Nat) : Machine :=
  match route cfg multicast m.station destip with
  | none => { m with sent := none }
  | some i =>
    if IsZero (node m.station i) then
      { m with sent := none, pending := some (i, nextHop m.station destip) }
    else
      { m with sent := some ⟨i, node m.station i, nextHop m.station destip, m.learned i⟩ }

/-- `await_arp`: the reply that was waited for. -/
def receive (m : Machine) (i : Entry) (hop sipaddr : Nat) (shwaddr : List UInt8) : Machine :=
  if sipaddr = hop then
    { station := setNode m.station shwaddr i
      learned := fun j => if j = i then some hop else m.learned j
      pending := none
      sent := some ⟨i, shwaddr, hop, some hop⟩ }
  else { m with sent := none }

/-- While a hardware address is waited for, nothing else happens to the table. -/
def wait (m : Machine) (i : Entry) (hop : Nat) : Event → Machine
  | .arpReply sipaddr shwaddr => m.receive i hop sipaddr shwaddr
  | .arpTimeout => { m with pending := none, sent := none }
  | _ => { m with sent := none }

def work (cfg : Config) (multicast : Bool) (m : Machine) : Event → Machine
  | .transmit destip => m.transmit cfg multicast destip
  | e => { m with station := assign cfg m.station e, sent := none }

def step (cfg : Config) (multicast : Bool) (m : Machine) (e : Event) : Machine :=
  match m.pending with
  | some (i, hop) => m.wait i hop e
  | none => m.work cfg multicast e

/-- The entry's hardware address, if it has one, was learned for its address. -/
def Coherent (m : Machine) (i : Entry) : Prop :=
  ¬ IsZero (node m.station i) → m.learned i = some (ipaddr m.station i)
  deriving Decidable

/-- **The table is right**, as far as the entries `is` of other hosts go: they are coherent, and a datagram that is
    sent by one of them goes to the hardware address of the next host. -/
@[mk_iff] structure Right (is : List Entry) (m : Machine) : Prop where
  coherent : ∀ i ∈ is, i ≠ .client → m.Coherent i
  sent : ∀ d, m.sent = some d → d.entry ∈ is → d.entry ≠ .client → d.learned = some d.nextHop

instance (is : List Entry) (m : Machine) : Decidable (m.Right is) := decidable_of_iff' _ (right_iff ..)

/-- The condition: a URL does not name another server, and an option not another gateway or name server, while the
    hardware address of the present one is known. -/
def Keeps (is : List Entry) (m : Machine) (e : Event) : Prop :=
  m.pending = none →
    match e with
    | .load build fname =>
      .server ∈ is → IsZero (node m.station .server) ∨
        (Loadkernel.loadkernel build m.station.server fname).server = m.station.server
    | .option data p kind =>
      (.gateway ∈ is → IsZero (node m.station .gateway) ∨
        (m.station.vars.take data p kind).gateway = m.station.vars.gateway) ∧
      (.nameserver ∈ is → IsZero (node m.station .nameserver) ∨
        (m.station.vars.take data p kind).nameserver = m.station.vars.nameserver)
    | _ => True

end Machine

/-! ## One assignment -/

/-- The entry loses its hardware address, or it is left as it is. -/
def Preserved (g g' : Station) (i : Entry) : Prop :=
  IsZero (node g' i) ∨ (node g' i = node g i ∧ ipaddr g' i = ipaddr g i)

section Assign

variable {g g' : Station}

theorem Preserved.refl (i : Entry) : Preserved g g i := Or.inr ⟨rfl, rfl⟩

variable {i : Entry}

theorem preserved_of (hnode : node g' i = node g i)
    (h : IsZero (node g i) ∨ ipaddr g' i = ipaddr g i) : Preserved g g' i := by
  rcases h with hzero | haddr
  · exact Or.inl (hnode ▸ hzero)
  · exact Or.inr ⟨hnode, haddr⟩

theorem Preserved.trans {g'' : Station} (h : Preserved g g' i) (h' : Preserved g' g'' i) :
    Preserved g g'' i := by
  rcases h' with hzero | ⟨hnode', haddr'⟩
  · exact Or.inl hzero
  · rcases h with hzero | ⟨hnode, haddr⟩
    · exact Or.inl (hnode' ▸ hzero)
    · exact Or.inr ⟨hnode'.trans hnode, haddr'.trans haddr⟩

theorem takeServers_preserved (f : Frame) (hi : i ≠ .client) : Preserved g (g.takeServers f) i := by
  unfold Station.takeServers
  cases i with
  | client => exact absurd rfl hi
  | server => split_ifs <;> first | exact Or.inl isZero_zeroNode | exact .refl _
  | gateway => split_ifs <;> first | exact Or.inl isZero_zeroNode | exact .refl _
  | nameserver => split_ifs <;> exact Or.inr ⟨rfl, rfl⟩
  | proxydhcp => split_ifs <;> exact Or.inr ⟨rfl, rfl⟩

theorem takeReply_preserved (cfg : Config) (f : Frame) (hi : i ≠ .client) :
    Preserved g (takeReply cfg f g) i := by
  unfold takeReply
  split_ifs
  · refine (takeServers_preserved f hi).trans ?_
    cases i with
    | client => exact absurd rfl hi
    | _ => exact Or.inr ⟨rfl, rfl⟩
  · refine (takeServers_preserved f hi).trans ?_
    cases i with
    | client => exact absurd rfl hi
    | proxydhcp => exact Or.inl isZero_zeroNode
    | _ => exact Or.inr ⟨rfl, rfl⟩
  · exact takeServers_preserved f hi
  · exact .refl _

theorem changeServer_preserved (ip : Nat) (hi : i ≠ .client) : Preserved g (changeServer g ip) i := by
  cases i with
  | client => exact absurd rfl hi
  | server => exact Or.inl isZero_zeroNode
  | _ => exact Or.inr ⟨rfl, rfl⟩

theorem beginRound_preserved (hi : i ≠ .client) : Preserved g (beginRound g) i := by
  cases i with
  | client => exact absurd rfl hi
  | _ => exact Or.inl isZero_zeroNode

/-- The assignments that meet the condition preserve the entries of other hosts. -/
theorem assign_preserved (cfg : Config) {is : List Entry} {m : Machine} {e : Event} (hkeeps : m.Keeps is e)
    (hpending : m.pending = none) (his : i ∈ is) (hi : i ≠ .client) :
    Preserved m.station (assign cfg m.station e) i := by
  have hkeeps := hkeeps hpending
  cases e with
  | round => exact beginRound_preserved hi
  | reply f => exact takeReply_preserved cfg f hi
  | option data p kind =>
    obtain ⟨hgateway, hnameserver⟩ := hkeeps
    cases i with
    | client => exact absurd rfl hi
    | gateway => exact preserved_of rfl (hgateway his)
    | nameserver => exact preserved_of rfl (hnameserver his)
    | server => exact Or.inr ⟨rfl, rfl⟩
    | proxydhcp => exact Or.inr ⟨rfl, rfl⟩
  | load build fname =>
    cases i with
    | client => exact absurd rfl hi
    | server => exact preserved_of rfl (hkeeps his)
    | _ => exact Or.inr ⟨rfl, rfl⟩
  | tftpOpen ip =>
    rw [assign]
    split
    · exact changeServer_preserved ip hi
    · exact .refl _
  | slam ip =>
    rw [assign]
    split
    · exact changeServer_preserved ip hi
    · exact .refl _
  | bootItem ip => exact changeServer_preserved ip hi
  | udpOpen ip =>
    rw [assign]
    split
    · cases i with
      | client => exact absurd rfl hi
      | _ => exact Or.inr ⟨rfl, rfl⟩
    · exact .refl _
  | _ => exact .refl _

end Assign

/-! ## Whole runs -/

@[simp] theorem ipaddr_setNode (i j : Entry) :
    ipaddr (setNode g n i) j = ipaddr g j := by
  cases i <;> cases j <;> rfl

theorem node_setNode_of_ne {i j : Entry} (h : j ≠ i) :
    node (setNode g n i) j = node g j := by
  cases i <;> cases j <;> first | rfl | exact absurd rfl h

namespace Machine

variable {cfg : Config} {multicast : Bool} {is : List Entry} {m : Machine}

/-- The entries are coherent, and the one that is waited for has the address that was asked for. -/
structure Inv (is : List Entry) (m : Machine) : Prop where
  coherent : ∀ i ∈ is, i ≠ .client → m.Coherent i
  pending : ∀ i hop, m.pending = some (i, hop) → ipaddr m.station i = hop

theorem Inv.right_of_quiet (h : m.Inv is) (hsent : m.sent = none) : m.Right is :=
  ⟨h.coherent, fun d hd => by cases (hsent.symm.trans hd)⟩

theorem Inv.quiet (h : m.Inv is) :
    ({ m with sent := none } : Machine).Right is ∧ ({ m with sent := none } : Machine).Inv is := by
  have hinv : ({ m with sent := none } : Machine).Inv is := ⟨h.coherent, h.pending⟩
  exact ⟨hinv.right_of_quiet rfl, hinv⟩

variable {e : Event} {i : Entry}

theorem Inv.assign (h : m.Inv is) (hkeeps : m.Keeps is e) (hpending : m.pending = none) :
    ({ m with station := assign cfg m.station e, sent := none } : Machine).Right is ∧
      ({ m with station := assign cfg m.station e, sent := none } : Machine).Inv is := by
  have hinv : ({ m with station := Arp.assign cfg m.station e, sent := none } : Machine).Inv is := by
    refine ⟨fun i his hi hnode => ?_, fun i hop hp => by cases (hpending.symm.trans hp)⟩
    rcases assign_preserved cfg hkeeps hpending his hi with hzero | ⟨hsame, haddr⟩
    · exact absurd hzero hnode
    · rw [haddr]
      exact h.coherent i his hi (hsame ▸ hnode)
  exact ⟨hinv.right_of_quiet rfl, hinv⟩

theorem route_ipaddr {g : Station} {destip : Nat} (h : route cfg multicast g destip = some i) :
    ipaddr g i = nextHop g destip := by
  unfold route at h
  split_ifs at h
  have hfound := List.find?_some h
  exact of_decide_eq_true hfound

theorem Inv.transmit (h : m.Inv is) (hpending : m.pending = none) (destip : Nat) :
    (m.transmit cfg multicast destip).Right is ∧ (m.transmit cfg multicast destip).Inv is := by
  unfold Machine.transmit
  cases hroute : route cfg multicast m.station destip with
  | none => exact h.quiet
  | some i =>
    have haddr := route_ipaddr hroute
    by_cases hzero : IsZero (node m.station i)
    · simp only [if_pos hzero]
      have hinv : ({ m with sent := none, pending := some (i, nextHop m.station destip) } : Machine).Inv is := by
        refine ⟨h.coherent, fun j hop hp => ?_⟩
        cases Option.some.inj hp
        exact haddr
      exact ⟨hinv.right_of_quiet rfl, hinv⟩
    · simp only [if_neg hzero]
      refine ⟨⟨h.coherent, fun d hd his hi => ?_⟩,
        ⟨h.coherent, fun j hop hp => by cases (hpending.symm.trans hp)⟩⟩
      cases hd
      rw [← haddr]
      exact h.coherent i his hi hzero

theorem Inv.receive (h : m.Inv is) {hop : Nat} (hp : m.pending = some (i, hop)) (sipaddr : Nat)
    (shwaddr : List UInt8) :
    (m.receive i hop sipaddr shwaddr).Right is ∧ (m.receive i hop sipaddr shwaddr).Inv is := by
  unfold Machine.receive
  by_cases hsame : sipaddr = hop
  · rw [if_pos hsame]
    have hcoherent : ∀ j ∈ is, j ≠ .client →
        Coherent ⟨setNode m.station shwaddr i, fun j => if j = i then some hop else m.learned j, none,
          some ⟨i, shwaddr, hop, some hop⟩⟩ j := by
      intro j hjs hj hnode
      by_cases hji : j = i
      · subst hji
        rw [ipaddr_setNode, h.pending j hop hp]
        exact if_pos rfl
      · rw [ipaddr_setNode]
        rw [node_setNode_of_ne _ _ hji] at hnode
        exact (if_neg hji).trans (h.coherent j hjs hj hnode)
    refine ⟨⟨hcoherent, fun d hd _ _ => ?_⟩, ⟨hcoherent, fun j hop' hp' => by cases hp'⟩⟩
    rw [← Option.some.inj hd]
  · rw [if_neg hsame]
    exact h.quiet

theorem Inv.step (h : m.Inv is) (hkeeps : m.Keeps is e) :
    (m.step cfg multicast e).Right is ∧ (m.step cfg multicast e).Inv is := by
  unfold Machine.step
  cases hp : m.pending with
  | none =>
    cases e with
    | transmit destip => exact h.transmit hp destip
    | _ => exact h.assign hkeeps hp
  | some x =>
    cases e with
    | arpReply sipaddr shwaddr => exact h.receive hp sipaddr shwaddr
    | arpTimeout =>
      have hinv : ({ m with pending := none, sent := none } : Machine).Inv is :=
        ⟨h.coherent, fun j hop hp => by cases hp⟩
      exact ⟨hinv.right_of_quiet rfl, hinv⟩
    | _ => exact h.quiet

/-- An entry with a hardware address that is coherent before and after has kept its address. -/
theorem Inv.same_address (h : m.Inv is) (his : i ∈ is) (hi : i ≠ .client) {g : Station}
    (hright : ({ m with station := g, sent := none } : Machine).Right is)
    (hnode : node g i = node m.station i) : IsZero (node m.station i) ∨ ipaddr g i = ipaddr m.station i := by
  by_cases hzero : IsZero (node m.station i)
  · exact Or.inl hzero
  · refine Or.inr ?_
    have hafter : m.learned i = some (ipaddr g i) := hright.coherent i his hi (hnode ▸ hzero)
    exact Option.some.inj (hafter.symm.trans (h.coherent i his hi hzero))

theorem Inv.keeps (h : m.Inv is) (hright : (m.step cfg multicast e).Right is) : m.Keeps is e := by
  intro hp
  unfold Machine.step at hright
  rw [hp] at hright
  cases e with
  | load build fname => exact fun his => h.same_address his (by decide) hright rfl
  | option data p kind =>
    exact ⟨fun his => h.same_address his (by decide) hright rfl,
      fun his => h.same_address his (by decide) hright rfl⟩
  | _ => trivial

/-- The table has been cleared, and nothing has been learned yet. -/
def start (g : Station) : Machine := ⟨beginRound g, fun _ => none, none, none⟩

theorem start_inv (is : List Entry) (g : Station) : (start g).Inv is := by
  refine ⟨fun i _ hi hnode => ?_, fun i hop hp => absurd hp (by simp [start])⟩
  cases i with
  | client => exact absurd rfl hi
  | _ => exact absurd isZero_zeroNode hnode

end Machine

/-- **Coherence of the table.** In a run, the entries of other hosts always have the hardware address of the host
    whose address they have, and datagrams go there, exactly if every step keeps the addresses of the hosts whose
    hardware addresses are known. -/
theorem right_iff_keeps (cfg : Config) (multicast : Bool) (is : List Entry) (g : Station) (es : List Event) :
    ((Machine.start g).Right is ∧
        AllSteps (Machine.step cfg multicast) (fun m e => (m.step cfg multicast e).Right is) (Machine.start g) es) ↔
      AllSteps (Machine.step cfg multicast) (fun m e => m.Keeps is e) (Machine.start g) es := by
  have hstart := Machine.start_inv is g
  rw [and_iff_right (hstart.right_of_quiet rfl)]
  exact allSteps_iff (Machine.Inv is)
    (fun _ _ h => ⟨fun hright => h.keeps hright, fun hkeeps => (h.step hkeeps).1⟩)
    (fun _ _ h hkeeps => (h.step hkeeps).2) hstart es

/-- The reply names the server 10.0.0.1, whose hardware address is asked for and received; then a file is loaded
    from 10.0.0.2. -/
def secondServer : List Event :=
  [.reply plainReply, .transmit 0x0a000001, .arpReply 0x0a000001 [2, 0, 0, 0, 0, 1],
    .load (Loadkernel.allProtos false) (Text.bytes "tftp://10.0.0.2/k"), .transmit 0x0a000002]

/-- The datagram for the second server goes to the first one. -/
theorem secondServer_not_right :
    ¬ AllSteps (Machine.step vciBuild false) (fun m e => (m.step vciBuild false e).Right [.server, .gateway])
        (Machine.start asking) secondServer ∧
      (secondServer.foldl (Machine.step vciBuild false) (Machine.start asking)).sent =
        some ⟨.server, [2, 0, 0, 0, 0, 1], 0x0a000002, some 0x0a000001⟩ := by
  decide +kernel

end Arp
