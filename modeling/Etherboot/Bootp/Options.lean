import Etherboot.Bootp.Walk

set_option autoImplicit false

/-! # What the options of a reply mean

A vendor area that is well formed is a sequence of padding, options and Etherboot options, which hold sequences
of their own, and ends with END. What it means is a fold: every option sets what it is for, if it is met in
the context that it is defined for. `decode_options` says that the decoder computes this fold. -/

namespace Bootp

open Memory Prog

/-! ## Sequences of options -/

/-- Padding, or an option with its data. -/
inductive Item where
  | pad
  | option (tag : UInt8) (data : List UInt8)
  deriving DecidableEq, Repr

/-- An item, or an Etherboot option with the items inside. Behind the items there may be END and more bytes. -/
inductive Part where
  | item (x : Item)
  | encap (inside : List Item) (behind : Option (List UInt8))
  deriving DecidableEq, Repr

def Item.bytes : Item → List UInt8
  | .pad => [rfc1533Pad]
  | .option tag data => tag :: UInt8.ofNat data.length :: data

def insideBytes (inside : List Item) (behind : Option (List UInt8)) : List UInt8 :=
  inside.flatMap Item.bytes ++ (behind.map (rfc1533End :: ·)).getD []

def Part.bytes : Part → List UInt8
  | .item x => x.bytes
  | .encap inside behind =>
    rfc1533VendorEtherbootEncap :: UInt8.ofNat (insideBytes inside behind).length ::
      insideBytes inside behind

/-- The options that hold an address, outside of others. -/
def IsAddress (tag : UInt8) : Prop :=
  tag = rfc1533Netmask ∨ tag = rfc1533Gateway ∨ tag = rfc2132SrvId ∨ tag = rfc1533Dns

/-- The option is well formed. An extension path is not inside of an Etherboot option. -/
structure OptionOk (encapsulated : Bool) (tag : UInt8) (data : List UInt8) : Prop where
  tag_pad : tag ≠ rfc1533Pad
  tag_end : tag ≠ rfc1533End
  length : data.length ≤ 255
  noPath : encapsulated = true → tag ≠ rfc1533Extensionpath
  notEncap : encapsulated = false → tag ≠ rfc1533VendorEtherbootEncap
  address : encapsulated = false → IsAddress tag → 4 ≤ data.length
  msgType : encapsulated = false → tag = rfc2132MsgType → 1 ≤ data.length

def Item.Ok (encapsulated : Bool) : Item → Prop
  | .pad => True
  | .option tag data => OptionOk encapsulated tag data

def Part.Ok : Part → Prop
  | .item x => x.Ok false
  | .encap inside behind => (∀ x ∈ inside, x.Ok true) ∧ (insideBytes inside behind).length ≤ 255

/-- A vendor area in `bootp_data`: the cookie, a sequence and END. Any bytes may follow. -/
structure Area (b : Store) where
  parts : List Part
  ok : ∀ x ∈ parts, x.Ok
  has : b.Has vendOffset (rfc1533Cookie ++ parts.flatMap Part.bytes ++ [rfc1533End])
  fits : vendOffset + (rfc1533Cookie ++ parts.flatMap Part.bytes ++ [rfc1533End]).length ≤ sizeofBootpd

/-! ## What they mean -/

structure Settings where
  netmask : Nat
  gateway : Nat
  dhcpReply : Nat
  dhcpServer : Nat
  hostname : Option (List UInt8)
  addparam : Option (List UInt8)
  vendorextIsvalid : Nat
  deriving DecidableEq, Repr

/-- The address in the first four bytes. -/
def addressOf (data : List UInt8) : Nat := (data.take 4).foldl (fun n c => 256 * n + c.toNat) 0

/-- An item sets what it is for. Added parameters are taken in both contexts, the magic option where the build
    allows it, and everything else only outside of Etherboot options. -/
def Settings.take (build : Build) (encapsulated : Bool) (s : Settings) : Item → Settings
  | .pad => s
  | .option tag data =>
    if tag = rfc1533VendorAddparm then { s with addparam := some data }
    else if tag = rfc1533VendorMagic then
      if (build.onlyEncapsulated → encapsulated) ∧ 6 ≤ data.length ∧
          data.take 5 = vendorextMagic ++ [rfc1533VendorMajor] then
        { s with vendorextIsvalid := s.vendorextIsvalid + 1 }
      else s
    else if encapsulated then s
    else if tag = rfc1533Netmask then { s with netmask := addressOf data }
    else if tag = rfc1533Gateway then { s with gateway := addressOf data }
    else if tag = rfc1533Hostname then { s with hostname := some data }
    else if tag = rfc2132MsgType then { s with dhcpReply := (data.headD 0).toNat }
    else if tag = rfc2132SrvId then { s with dhcpServer := addressOf data }
    else s

def Settings.takePart (build : Build) (s : Settings) : Part → Settings
  | .item x => s.take build false x
  | .encap inside _ => inside.foldl (Settings.take build true) s

/-- The settings in the variables. Texts are in `bootp_data`, which may have changed since: they are read from
    `t`. -/
def Vars.settings (t : Store) (v : Vars) : Settings where
  netmask := v.netmask
  gateway := v.gateway
  dhcpReply := v.dhcpReply
  dhcpServer := v.dhcpServer
  hostname := v.hostname.map (fun p => t.slice p v.hostnamelen)
  addparam := v.addparam.map (fun p => t.slice p v.addparamlen)
  vendorextIsvalid := v.vendorextIsvalid

/-- A new reply begins without added parameters and without the magic option. -/
def Settings.begin (s : Settings) : Settings := { s with addparam := none, vendorextIsvalid := 0 }

/-! ## One option -/

section Option

variable {build : Build} {b t : Store} {p : Nat} {tag : UInt8} {data : List UInt8}

open Store

theorem be32_eq_addressOf (h : b.Has p data) (hlen : 4 ≤ data.length) : be32 b p = addressOf data := by
  match data, hlen with
  | c0 :: c1 :: c2 :: c3 :: data, _ =>
    rw [has_cons, has_cons, has_cons, has_cons] at h
    obtain ⟨h0, h1, h2, h3, -⟩ := h
    rw [be32, be16, be16, h0, h1, h2, h3]
    simp only [addressOf, List.take_succ_cons, List.take_zero, List.foldl_cons, List.foldl_nil]
    omega

theorem toNat_length (h : data.length ≤ 255) : (UInt8.ofNat data.length).toNat = data.length := by
  exact Nat.mod_eq_of_lt (by omega)

theorem has_option (h : b.Has p (Item.option tag data).bytes) (hlen : data.length ≤ 255) :
    b p = tag ∧ (b (p + 1)).toNat = data.length ∧ b.Has (p + 2) data := by
  rw [Item.bytes, has_cons, has_cons] at h
  obtain ⟨htag, hcount, hdata⟩ := h
  exact ⟨htag, by rw [hcount, toNat_length hlen], hdata⟩

theorem isMagic_iff (hcount : (b (p + 1)).toNat = data.length) (h : b.Has (p + 2) data) :
    IsMagic b p ↔ 6 ≤ data.length ∧ data.take 5 = vendorextMagic ++ [rfc1533VendorMajor] := by
  rw [IsMagic, hcount]
  refine and_congr_right fun hlen => ?_
  have hsplit : b.slice (p + 2) (5 + (data.length - 5)) = data := by
    rw [Nat.add_sub_cancel' (by omega)]
    exact h
  rw [slice_append] at hsplit
  rw [← hsplit, List.take_left' (length_slice b (p + 2) 5)]
  rfl

theorem slice_of_has (h : t.Has (p + 2) data) (hcount : (b (p + 1)).toNat = data.length) :
    t.slice (p + 2) (b (p + 1)).toNat = data := by
  rw [hcount]
  exact h

theorem settings_of_other {k : Kind} (v : Vars)
    (h : k = .vendor ∨ k = .dns ∨ k = .extensionpath ∨ k = .etherbootEncap ∨ k = .unknown) :
    (v.take b p k).settings t = v.settings t := by
  rcases h with rfl | rfl | rfl | rfl | rfl <;> rfl

theorem settings_magic (v : Vars) (hcount : (b (p + 1)).toNat = data.length) (hdata : b.Has (p + 2) data) :
    (v.take b p .vendorMagic).settings t =
      if 6 ≤ data.length ∧ data.take 5 = vendorextMagic ++ [rfc1533VendorMajor] then
        { v.settings t with vendorextIsvalid := (v.settings t).vendorextIsvalid + 1 }
      else v.settings t := by
  have hmagic := isMagic_iff hcount hdata
  rw [Vars.take]
  by_cases h : IsMagic b p
  · rw [if_pos h, if_pos (hmagic.mp h)]
    rfl
  · rw [if_neg h, if_neg (fun h' => h (hmagic.mpr h'))]

/-- Inside of an Etherboot option, two kinds of options count. -/
theorem take_settings_inside (v : Vars) (hok : OptionOk true tag data)
    (hcount : (b (p + 1)).toNat = data.length) (hdata : b.Has (p + 2) data) (ht : t.Has (p + 2) data) :
    (v.take b p (Kind.of build true tag)).settings t = (v.settings t).take build true (.option tag data) := by
  by_cases haddparm : tag = rfc1533VendorAddparm
  · have hkind : Kind.of build true tag = .addparm := by
      subst haddparm
      simp [Kind.of, rfc1533VendorAddparm, rfc1533Extensionpath, rfc1533VendorMagic]
    rw [hkind, Settings.take, if_pos haddparm, ← slice_of_has ht hcount]
    rfl
  · by_cases hmagic : tag = rfc1533VendorMagic
    · have hkind : Kind.of build true tag = .vendorMagic := by
        subst hmagic
        simp [Kind.of, rfc1533Extensionpath, rfc1533VendorMagic]
      rw [hkind, settings_magic v hcount hdata, Settings.take, if_neg haddparm, if_pos hmagic]
      simp only [implies_true, true_and]
    · have hkind : Kind.of build true tag = .unknown := by
        simp [Kind.of, hok.noPath rfl, haddparm, hmagic]
      rw [hkind, Settings.take, if_neg haddparm, if_neg hmagic, if_pos rfl]
      exact settings_of_other v (.inr (.inr (.inr (.inr rfl))))

theorem kind_outside (build : Build) :
    Kind.of build false rfc1533Netmask = .netmask ∧ Kind.of build false rfc1533Gateway = .gateway ∧
      Kind.of build false rfc2132MsgType = .msgType ∧ Kind.of build false rfc2132SrvId = .srvId ∧
      Kind.of build false rfc1533Hostname = .hostname ∧ Kind.of build false rfc1533VendorAddparm = .addparm ∧
      Kind.of build false rfc1533VendorMagic = if build.onlyEncapsulated then .unknown else .vendorMagic := by
  obtain ⟨onlyEncapsulated, dnsResolver, requireVci, pxeExport⟩ := build
  cases onlyEncapsulated <;> cases requireVci <;> cases dnsResolver <;>
    exact ⟨rfl, rfl, rfl, rfl, rfl, rfl, rfl⟩

theorem take_settings_outside (v : Vars) (hok : OptionOk false tag data)
    (hcount : (b (p + 1)).toNat = data.length) (hdata : b.Has (p + 2) data) (ht : t.Has (p + 2) data) :
    (v.take b p (Kind.of build false tag)).settings t =
      (v.settings t).take build false (.option tag data) := by
  obtain ⟨kNetmask, kGateway, kMsgType, kSrvId, kHostname, kAddparm, kMagic⟩ := kind_outside build
  have haddress : IsAddress tag → be32 b (p + 2) = addressOf data := fun h =>
    be32_eq_addressOf hdata (hok.address rfl h)
  have htext := slice_of_has ht hcount
  by_cases hnetmask : tag = rfc1533Netmask
  · have hvalue := haddress (.inl hnetmask)
    subst hnetmask
    rw [kNetmask, Vars.take, hvalue]
    rfl
  by_cases hgateway : tag = rfc1533Gateway
  · have hvalue := haddress (.inr (.inl hgateway))
    have hlen : 4 ≤ (b (p + 1)).toNat := by
      rw [hcount]
      exact hok.address rfl (.inr (.inl hgateway))
    subst hgateway
    rw [kGateway, Vars.take, addressAt, if_pos hlen, hvalue]
    rfl
  by_cases hmsgType : tag = rfc2132MsgType
  · have hvalue : b (p + 2) = data.headD 0 := by
      have hlen := hok.msgType rfl hmsgType
      cases data with
      | nil => cases hlen
      | cons c data => exact (has_cons.mp hdata).1
    subst hmsgType
    rw [kMsgType, Vars.take, hvalue]
    rfl
  by_cases hsrvId : tag = rfc2132SrvId
  · have hvalue := haddress (.inr (.inr (.inl hsrvId)))
    subst hsrvId
    rw [kSrvId, Vars.take, hvalue]
    rfl
  by_cases hhostname : tag = rfc1533Hostname
  · subst hhostname
    rw [kHostname, ← htext]
    rfl
  by_cases haddparm : tag = rfc1533VendorAddparm
  · subst haddparm
    rw [kAddparm, ← htext]
    rfl
  by_cases hmagic : tag = rfc1533VendorMagic
  · rw [Settings.take, if_neg haddparm, if_pos hmagic, hmagic, kMagic]
    by_cases honly : build.onlyEncapsulated = true
    · rw [if_pos honly, if_neg (fun h => by cases (h.1 honly))]
      exact settings_of_other v (.inr (.inr (.inr (.inr rfl))))
    · rw [if_neg honly, settings_magic v hcount hdata]
      simp only [honly, false_implies, true_and, Bool.false_eq_true]
  · -- none of the settings is for this tag
    have hother : Kind.of build false tag = .vendor ∨ Kind.of build false tag = .dns ∨
        Kind.of build false tag = .extensionpath ∨ Kind.of build false tag = .etherbootEncap ∨
        Kind.of build false tag = .unknown := by
      simp only [Kind.of, hnetmask, hgateway, hmsgType, hsrvId, hhostname, hmagic, haddparm,
        hok.notEncap rfl, and_false, if_false, true_and]
      split_ifs
      · exact .inr (.inr (.inl rfl))
      · exact .inl rfl
      · exact .inr (.inl rfl)
      · exact .inr (.inr (.inr (.inr rfl)))
    rw [settings_of_other v hother]
    simp [Settings.take, hnetmask, hgateway, hmsgType, hsrvId, hhostname, hmagic, haddparm]

end Option

/-! ## The walk -/

section Walk

variable {build : Build} {b : Store}

/-- The decoder gets from one state to another. -/
def Reaches (build : Build) (b : Store) (d d' : Decoder) : Prop := ∃ n, d.run build b n = d'

theorem Reaches.refl (d : Decoder) : Reaches build b d d := ⟨0, rfl⟩

theorem Reaches.trans {d d' d'' : Decoder} (h : Reaches build b d d') (h' : Reaches build b d' d'') :
    Reaches build b d d'' := by
  obtain ⟨m, rfl⟩ := h
  obtain ⟨n, rfl⟩ := h'
  refine ⟨m + n, ?_⟩
  simp only [Decoder.run_eq, Ctl.after_add, Vars.after_add]

theorem Reaches.step {c c' : Ctl} {v v' : Vars} (hctl : c.next build b = c')
    (hvars : v.next build b c = v') : Reaches build b ⟨c, v⟩ ⟨c', v'⟩ := by
  refine ⟨1, ?_⟩
  rw [Decoder.run_eq, Ctl.after, Ctl.after, Vars.after, Vars.after, hctl, hvars]

/-- The decoder at the position `p`. -/
def walkAt (p endp : Nat) (extpath : Option Nat) (outer : Option Level) : Ctl := ⟨⟨p, endp, extpath⟩, outer, .walk⟩

variable {p endp : Nat} {extpath : Option Nat} {outer : Option Level} {v : Vars}

theorem reaches_pad (hp : p < endp) (h : b p = rfc1533Pad) :
    Reaches build b ⟨walkAt p endp extpath outer, v⟩ ⟨walkAt (p + 1) endp extpath outer, v⟩ := by
  exact .step ((if_pos hp).trans (if_pos h)) ((if_pos hp).trans (if_pos h))

theorem reaches_end (hp : p < endp) (h : b p = rfc1533End) :
    Reaches build b ⟨walkAt p endp extpath outer, v⟩
      ⟨walkAt p p extpath outer, { v with endOfRfc1533 := some p }⟩ := by
  have hpad : b p ≠ rfc1533Pad := by
    rw [h]
    decide
  exact .step ((if_pos hp).trans ((if_neg hpad).trans (if_pos h)))
    ((if_pos hp).trans ((if_neg hpad).trans (if_pos h)))

theorem reaches_option (hp : p < endp) (hpad : b p ≠ rfc1533Pad) (hend : b p ≠ rfc1533End)
    (hencap : Kind.of build outer.isSome (b p) ≠ .etherbootEncap) :
    Reaches build b ⟨walkAt p endp extpath outer, v⟩
      ⟨walkAt (p + (b (p + 1)).toNat + 2) endp
        (if Kind.of build outer.isSome (b p) = .extensionpath then some p else extpath) outer,
        v.take b p (Kind.of build outer.isSome (b p))⟩ := by
  refine .step ((if_pos hp).trans ((if_neg hpad).trans ((if_neg hend).trans ?_)))
    ((if_pos hp).trans ((if_neg hpad).trans (if_neg hend)))
  exact if_neg hencap

theorem ite_ne {c : Prop} [Decidable c] {k k' r : Kind} (hthen : c → k ≠ k') (helse : r ≠ k') :
    (if c then k else r) ≠ k' := by
  split
  · next hc => exact hthen hc
  · exact helse

theorem kind_ne_encap {enc : Bool} {tag : UInt8} {data : List UInt8} (h : OptionOk enc tag data) :
    Kind.of build enc tag ≠ .etherbootEncap := by
  iterate 9 refine ite_ne (fun _ => by decide) ?_
  refine ite_ne (fun hc => absurd hc.2 (h.notEncap hc.1)) ?_
  exact ite_ne (fun _ => by decide) (by decide)

theorem kind_ne_path {tag : UInt8} {data : List UInt8} (h : OptionOk true tag data) :
    Kind.of build true tag ≠ .extensionpath := by
  iterate 2 refine ite_ne (fun _ => by decide) ?_
  refine ite_ne (fun hc => absurd hc (h.noPath rfl)) ?_
  iterate 8 refine ite_ne (fun _ => by decide) ?_
  decide

/-- The decoder walks over bytes inside of `outer`, and they set what `f` says. Inside of an Etherboot option the
    extension path stays as it is. -/
def Sets (build : Build) (b : Store) (endp : Nat) (outer : Option Level) (bytes : List UInt8)
    (f : Settings → Settings) : Prop :=
  ∀ (p : Nat) (extpath : Option Nat) (v : Vars), b.Has p bytes → p + bytes.length ≤ endp →
    ∃ extpath' v', (outer.isSome = true → extpath' = extpath) ∧
      Reaches build b ⟨walkAt p endp extpath outer, v⟩ ⟨walkAt (p + bytes.length) endp extpath' outer, v'⟩ ∧
      ∀ t : Store, t.Has p bytes → v'.settings t = f (v.settings t)

theorem Sets.append {xs ys : List UInt8} {f g : Settings → Settings} (h : Sets build b endp outer xs f)
    (h' : Sets build b endp outer ys g) : Sets build b endp outer (xs ++ ys) (fun s => g (f s)) := by
  intro p extpath v hhas hfits
  rw [Store.has_append] at hhas
  rw [List.length_append] at hfits
  obtain ⟨extpath', v', hpath, hreach, hsettings⟩ := h p extpath v hhas.1 (by omega)
  obtain ⟨extpath'', v'', hpath', hreach', hsettings'⟩ :=
    h' (p + xs.length) extpath' v' hhas.2 (by omega)
  refine ⟨extpath'', v'', fun hsome => (hpath' hsome).trans (hpath hsome), ?_, fun t ht => ?_⟩
  · rw [List.length_append, ← Nat.add_assoc]
    exact hreach.trans hreach'
  · rw [Store.has_append] at ht
    rw [hsettings' t ht.2, hsettings t ht.1]

theorem Sets.list {α : Type} {bytes : α → List UInt8} {take : Settings → α → Settings} {xs : List α}
    (h : ∀ x ∈ xs, Sets build b endp outer (bytes x) (take · x)) :
    Sets build b endp outer (xs.flatMap bytes) (fun s => xs.foldl take s) := by
  induction xs with
  | nil => exact fun p extpath v _ _ => ⟨extpath, v, fun _ => rfl, .refl _, fun _ _ => rfl⟩
  | cons x xs ih =>
    exact (h x List.mem_cons_self).append (ih fun y hy => h y (List.mem_cons_of_mem x hy))

theorem sets_item {x : Item} (hok : x.Ok outer.isSome) :
    Sets build b endp outer x.bytes (·.take build outer.isSome x) := by
  intro p extpath v hhas hfits
  cases x with
  | pad =>
    have hlen : Item.pad.bytes.length = 1 := rfl
    exact ⟨extpath, v, fun _ => rfl, reaches_pad (by omega) (Store.has_cons.mp hhas).1, fun _ _ => rfl⟩
  | option tag data =>
    have hxok : OptionOk outer.isSome tag data := hok
    obtain ⟨htag, hcount, hdata⟩ := has_option hhas hxok.length
    have hlen : (Item.option tag data).bytes.length = data.length + 2 := rfl
    have hreach := @reaches_option build b p endp extpath outer v (by omega) (htag ▸ hxok.tag_pad)
      (htag ▸ hxok.tag_end) (htag ▸ kind_ne_encap hxok)
    rw [htag, hcount, Nat.add_assoc] at hreach
    refine ⟨_, _, fun hsome => if_neg ?_, hreach, fun t ht => ?_⟩
    · rw [hsome] at hxok ⊢
      exact kind_ne_path hxok
    · have htext := (has_option ht hxok.length).2.2
      cases henc : outer.isSome with
      | true => exact take_settings_inside v (henc ▸ hxok) hcount hdata htext
      | false => exact take_settings_outside v (henc ▸ hxok) hcount hdata htext

theorem reaches_enter (hp : p < endp) (h : b p = rfc1533VendorEtherbootEncap) :
    Reaches build b ⟨walkAt p endp extpath none, v⟩
      ⟨walkAt (p + 2) (p + 2 + (b (p + 1)).toNat) none (some ⟨p, endp, extpath⟩), v⟩ := by
  have hpad : b p ≠ rfc1533Pad := by
    rw [h]
    decide
  have hend : b p ≠ rfc1533End := by
    rw [h]
    decide
  have hkind : Kind.of build false (b p) = .etherbootEncap := by
    rw [h]
    obtain ⟨onlyEncapsulated, dnsResolver, requireVci, pxeExport⟩ := build
    cases onlyEncapsulated <;> cases requireVci <;> rfl
  refine .step ((if_pos hp).trans ((if_neg hpad).trans ((if_neg hend).trans (if_pos hkind)))) ?_
  refine (if_pos hp).trans ((if_neg hpad).trans ((if_neg hend).trans ?_))
  exact congrArg (Vars.take b p v) hkind

/-- The second call is over, and the first one goes on behind the option. -/
theorem reaches_return {q e : Nat} (hp : ¬ p < endp) :
    ∃ v', Reaches build b ⟨walkAt p endp none (some ⟨q, e, extpath⟩), v⟩
        ⟨walkAt (q + (b (q + 1)).toNat + 2) e extpath none, v'⟩ ∧
      ∀ t, v'.settings t = v.settings t :=
  ⟨_, Reaches.trans (.step (if_neg hp) (if_neg hp)) (.step rfl rfl), fun _ => rfl⟩

theorem reaches_inside {q e : Nat} (inside : List Item) (behind : Option (List UInt8))
    (hok : ∀ x ∈ inside, x.Ok true) (hhas : b.Has p (insideBytes inside behind)) :
    ∃ v', Reaches build b
        ⟨walkAt p (p + (insideBytes inside behind).length) none (some ⟨q, e, extpath⟩), v⟩
        ⟨walkAt (q + (b (q + 1)).toNat + 2) e extpath none, v'⟩ ∧
      ∀ t : Store, t.Has p (insideBytes inside behind) →
        v'.settings t = inside.foldl (Settings.take build true) (v.settings t) := by
  rw [insideBytes, Store.has_append] at hhas
  obtain ⟨hitems, hbehind⟩ := hhas
  have hlen : (insideBytes inside behind).length =
      (inside.flatMap Item.bytes).length + ((behind.map (rfc1533End :: ·)).getD []).length :=
    List.length_append
  obtain ⟨extpath', v1, hpath, hwalk, hsettings⟩ := Sets.list
    (fun x hx => @sets_item build b _ (some ⟨q, e, extpath⟩) x (hok x hx)) p none v hitems
    (show _ ≤ p + (insideBytes inside behind).length by omega)
  obtain rfl := hpath rfl
  have hfold : ∀ t : Store, t.Has p (insideBytes inside behind) →
      v1.settings t = inside.foldl (Settings.take build true) (v.settings t) := by
    intro t ht
    rw [insideBytes, Store.has_append] at ht
    exact hsettings t ht.1
  -- the end of the option, or END
  cases behind with
  | none =>
    have hstop : ¬ p + (inside.flatMap Item.bytes).length < p + (insideBytes inside none).length := by
      have : ((none.map (rfc1533End :: ·)).getD [] : List UInt8).length = 0 := rfl
      omega
    obtain ⟨v2, hreturn, hsame⟩ := @reaches_return build b _ _ extpath v1 q e hstop
    exact ⟨v2, hwalk.trans hreturn, fun t ht => (hsame t).trans (hfold t ht)⟩
  | some more =>
    have hmore : p + (inside.flatMap Item.bytes).length < p + (insideBytes inside (some more)).length := by
      have : (((some more).map (rfc1533End :: ·)).getD [] : List UInt8).length = more.length + 1 := rfl
      omega
    have hend := @reaches_end build b _ _ none (some ⟨q, e, extpath⟩) v1 hmore (Store.has_cons.mp hbehind).1
    obtain ⟨v2, hreturn, hsame⟩ := @reaches_return build b _ _ extpath
      { v1 with endOfRfc1533 := some (p + (inside.flatMap Item.bytes).length) } q e (Nat.lt_irrefl _)
    exact ⟨v2, (hwalk.trans hend).trans hreturn, fun t ht => (hsame t).trans (hfold t ht)⟩

theorem sets_part {x : Part} (hok : x.Ok) : Sets build b endp none x.bytes (·.takePart build x) := by
  cases x with
  | item x => exact @sets_item build b endp none x hok
  | encap inside behind =>
    intro p extpath v hhas hfits
    obtain ⟨hinside, hlen⟩ := hok
    rw [Part.bytes, Store.has_cons, Store.has_cons] at hhas
    obtain ⟨htag, hcount, hdata⟩ := hhas
    have hcount' : (b (p + 1)).toNat = (insideBytes inside behind).length := by
      rw [hcount, toNat_length hlen]
    have hbytes : (Part.encap inside behind).bytes.length = (insideBytes inside behind).length + 2 := rfl
    have henter := @reaches_enter build b p endp extpath v (by omega) htag
    obtain ⟨v1, hwalk, hsettings⟩ :=
      @reaches_inside build b (p + 2) extpath v p endp inside behind hinside hdata
    rw [hcount'] at henter hwalk
    refine ⟨extpath, v1, fun _ => rfl, henter.trans hwalk, fun t ht => hsettings t ?_⟩
    rw [Part.bytes, Store.has_cons, Store.has_cons] at ht
    exact ht.2.2

theorem reaches_done (hp : p < endp) (h : b p = rfc1533End) :
    ∃ v', Reaches build b ⟨walkAt p endp extpath none, v⟩ ⟨⟨⟨p, p, extpath⟩, none, .done⟩, v'⟩ ∧
      (∀ t, v'.settings t = v.settings t) ∧ v'.extdata = some p ∧ v'.extend = some p := by
  have hstop : ¬ p < p := Nat.lt_irrefl p
  refine ⟨_, ((reaches_end hp h).trans (.step (if_neg hstop) (if_neg hstop))).trans (.step rfl rfl), ?_⟩
  exact ⟨fun _ => rfl, rfl, rfl⟩

theorem reaches_sequence {xs : List Part} (hok : ∀ x ∈ xs, x.Ok)
    (hhas : b.Has p (xs.flatMap Part.bytes ++ [rfc1533End]))
    (hfits : p + (xs.flatMap Part.bytes).length < endp) :
    ∃ extpath' v', Reaches build b ⟨walkAt p endp extpath none, v⟩
        ⟨⟨⟨p + (xs.flatMap Part.bytes).length, p + (xs.flatMap Part.bytes).length, extpath'⟩, none, .done⟩, v'⟩ ∧
      (∀ t : Store, t.Has p (xs.flatMap Part.bytes) →
        v'.settings t = xs.foldl (Settings.takePart build) (v.settings t)) ∧
      v'.extdata = some (p + (xs.flatMap Part.bytes).length) ∧
      v'.extend = some (p + (xs.flatMap Part.bytes).length) := by
  obtain ⟨hparts, hend⟩ := Store.has_append.mp hhas
  obtain ⟨extpath', v1, -, hwalk, hsettings⟩ :=
    Sets.list (fun x hx => sets_part (hok x hx)) p extpath v hparts (Nat.le_of_lt hfits)
  obtain ⟨v2, hdone, hsame, hext⟩ := @reaches_done build b _ endp extpath' v1 hfits (Store.has_cons.mp hend).1
  exact ⟨extpath', v2, hwalk.trans hdone, fun t ht => (hsame t).trans (hsettings t ht), hext⟩

end Walk

/-! ## Whole replies -/

section Decode

variable {build : Build} {b : Store}

/-- The variables when the walk over a reply begins. -/
def Vars.begun (v : Vars) : Vars :=
  { v with
    vciEtherboot := false, endOfRfc1533 := none, vendorextIsvalid := 0, addparam := none, addparamlen := 0 }

theorem start_of_cookie (h : b.Has vendOffset rfc1533Cookie) (v : Vars) :
    ((Decoder.start v).run b).1 = ⟨Ctl.first, v.begun⟩ := by
  simp only [Decoder.start, run_bind, run_memcmp, run_pure, decide_eq_true h, if_true]
  rfl

/-- The state at the end of a walk, whatever number of steps it takes. -/
theorem run_of_reaches {c : Ctl} {d : Decoder} {v : Vars} {m : Nat} (h : Reaches build b ⟨c, v⟩ d)
    (hdone : d.ctl.phase = .done) (hm : (c.after build b m).phase = .done) :
    Decoder.run build b m ⟨c, v⟩ = d := by
  obtain ⟨n, rfl⟩ := h
  simp only [Decoder.run_eq] at hdone ⊢
  rcases Nat.le_total n m with hle | hle
  · obtain ⟨k, rfl⟩ := Nat.exists_eq_add_of_le hle
    rw [Ctl.after_add, Ctl.after_of_done hdone, Vars.after_add, Vars.after_of_done hdone]
  · obtain ⟨k, rfl⟩ := Nat.exists_eq_add_of_le hle
    rw [Ctl.after_add, Ctl.after_of_done hm, Vars.after_add, Vars.after_of_done hm]

/-- Where the vendor area ends. -/
def Area.endAt (area : Area b) : Nat := vendOffset + 4 + (area.parts.flatMap Part.bytes).length

theorem Area.hasParts (area : Area b) :
    b.Has (vendOffset + 4) (area.parts.flatMap Part.bytes ++ [rfc1533End]) := by
  have hhas := area.has
  rw [List.append_assoc, Store.has_append] at hhas
  exact hhas.2

theorem Area.endAt_lt (area : Area b) : area.endAt < sizeofBootpd := by
  have hfits := area.fits
  have hcookie : rfc1533Cookie.length = 4 := rfl
  have hone : [rfc1533End].length = 1 := rfl
  rw [List.length_append, List.length_append] at hfits
  rw [Area.endAt]
  omega

theorem Area.reaches (area : Area b) (v : Vars) :
    ∃ extpath v', Reaches build b ⟨Ctl.first, v⟩ ⟨⟨⟨area.endAt, area.endAt, extpath⟩, none, .done⟩, v'⟩ ∧
      (∀ t : Store, t.Has (vendOffset + 4) (area.parts.flatMap Part.bytes) →
        v'.settings t = area.parts.foldl (Settings.takePart build) (v.settings t)) ∧
      v'.extdata = some area.endAt ∧ v'.extend = some area.endAt := by
  have hlt := area.endAt_lt
  have hsize : vendOffset = 236 ∧ sizeofBootpd = 236 + 312 + 924 := ⟨rfl, rfl⟩
  have hend : area.endAt = vendOffset + 4 + (area.parts.flatMap Part.bytes).length := rfl
  exact @reaches_sequence build b (vendOffset + 4) (vendOffset + 4 + (312 + 924)) none v area.parts area.ok
    area.hasParts (by omega)

theorem Area.cookie (area : Area b) : b.Has vendOffset rfc1533Cookie :=
  (Store.has_append.mp (Store.has_append.mp area.has).1).1

-- stated for the functions: with its arguments, `decode` would be compared by carrying out all the steps
theorem decode_eq : decode = fun build b v => (((Decoder.start v).run b).1.run build b maxSteps).vars := by
  delta decode
  rfl

theorem decode_of_run {v : Vars} {d : Decoder} (h : ((Decoder.start v).run b).1.run build b maxSteps = d) :
    decode build b v = d.vars := by
  have heq := congrFun (congrFun (congrFun decode_eq build) b) v
  rw [heq, h]

theorem Area.run (area : Area b) (v : Vars) :
    ∃ extpath v', ((Decoder.start v).run b).1.run build b maxSteps =
        ⟨⟨⟨area.endAt, area.endAt, extpath⟩, none, .done⟩, v'⟩ ∧ decode build b v = v' ∧
      (∀ t : Store, t.Has (vendOffset + 4) (area.parts.flatMap Part.bytes) →
        v'.settings t = area.parts.foldl (Settings.takePart build) (v.settings t).begin) ∧
      v'.extdata = some area.endAt ∧ v'.extend = some area.endAt := by
  obtain ⟨extpath, v', hreach, hsettings, hext⟩ := @Area.reaches build b area v.begun
  have hrun : ((Decoder.start v).run b).1.run build b maxSteps =
      ⟨⟨⟨area.endAt, area.endAt, extpath⟩, none, .done⟩, v'⟩ := by
    rw [start_of_cookie area.cookie]
    exact run_of_reaches hreach rfl (Ctl.first_done build b)
  exact ⟨extpath, v', hrun, decode_of_run hrun, hsettings, hext⟩

/-- **The decoder sets what the options mean**, one after the other, and at the end it is not inside of an
    Etherboot option. -/
theorem decode_options (build : Build) (b : Store) (area : Area b) (v : Vars) :
    (decode build b v).settings b = area.parts.foldl (Settings.takePart build) (v.settings b).begin ∧
      (((Decoder.start v).run b).1.run build b maxSteps).ctl.phase = .done ∧
      (((Decoder.start v).run b).1.run build b maxSteps).ctl.encapsulated = false := by
  obtain ⟨extpath, v', hrun, hdecode, hsettings, -⟩ := @Area.run build b area v
  have hparts := (Store.has_append.mp area.hasParts).1
  rw [hdecode, hrun]
  exact ⟨hsettings b hparts, rfl, rfl⟩

/-- A netmask and, in an Etherboot option, added parameters and END with a byte behind it. -/
def sampleParts : List Part :=
  [.item .pad, .item (.option rfc1533Netmask [255, 255, 255, 0]),
    .encap [.option rfc1533Netmask [0], .option rfc1533VendorAddparm [1, 2]] (some [7])]

def sampleReply : Store := fun i =>
  (rfc1533Cookie ++ sampleParts.flatMap Part.bytes ++ [rfc1533End]).getD (i - vendOffset) 9

theorem decode_sample :
    ∃ area : Area sampleReply, area.parts = sampleParts ∧
      ∀ v, (decode ⟨true, false, false, false⟩ sampleReply v).settings sampleReply =
        { v.settings sampleReply with netmask := 0xffffff00, addparam := some [1, 2], vendorextIsvalid := 0 } := by
  have hok : ∀ x ∈ sampleParts, x.Ok := by
    intro x hx
    rcases List.mem_cons.mp hx with rfl | hx
    · exact trivial
    rcases List.mem_cons.mp hx with rfl | hx
    · exact ⟨by decide, by decide, by decide, by decide, by decide, fun _ _ => by decide, by decide⟩
    obtain rfl := List.mem_singleton.mp hx
    refine ⟨fun y hy => ?_, by decide⟩
    rcases List.mem_cons.mp hy with rfl | hy
    · exact ⟨by decide, by decide, by decide, by decide, by decide, nofun, by decide⟩
    obtain rfl := List.mem_singleton.mp hy
    exact ⟨by decide, by decide, by decide, by decide, by decide, nofun, by decide⟩
  refine ⟨⟨sampleParts, hok, by decide, by decide⟩, rfl, fun v => ?_⟩
  rw [(decode_options ⟨true, false, false, false⟩ sampleReply ⟨sampleParts, hok, by decide, by decide⟩ v).1]
  rfl

end Decode

end Bootp
