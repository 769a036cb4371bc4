import Etherboot.Lib.Transition
import Etherboot.Tftm.Client
import Etherboot.Tftm.OptionWalk

set_option autoImplicit false

/-! # Acknowledgements that announce a group

A multicast option has three fields, `addr,port,mc`. A server that only makes a client the master may
leave the first two empty, and then the group and the port are those announced before. The client takes
an empty address so, but reads an empty port as 0, and it takes every `mc` that begins with a 1 for 1.
`multicast_options_iff` has the sequences of acknowledgements after which it listens where it should, and
beside them the payloads that the walk over the options is confined to. -/

namespace Tftm

open Memory Prog Strings
open Tftp (scanLimit upcase decimal)

/-- Where a client listens, and whether it is the master. -/
structure Group where
  ip : Nat
  port : Nat
  ismaster : Bool
  deriving DecidableEq, Repr

def Options.group (o : Options) : Group := ⟨o.multicastIp, o.multicastPort, o.ismaster⟩

/-! ## What a server announces -/

/-- A field that may be empty. -/
def Written (writes : Nat → List UInt8 → Prop) : Option Nat → List UInt8 → Prop
  | none, text => text = []
  | some n, text => writes n text

/-- The three fields, with the first two in writing. -/
structure Announcement where
  addr : Option Nat
  port : Option Nat
  mc : List UInt8
  addrText : List UInt8
  portText : List UInt8
  addr_written : Written (Dotted 3 0) addr addrText
  port_written : Written (fun n ds => Digits n ds ∧ n < 2 ^ 16) port portText
  mc_noNull : 0 ∉ mc

namespace Announcement

def value (a : Announcement) : List UInt8 := a.addrText ++ 44 :: (a.portText ++ 44 :: a.mc)

/-- What is announced: a field that is empty leaves the group as it is. -/
def apply (a : Announcement) (g : Group) : Group :=
  ⟨a.addr.getD g.ip, a.port.getD g.port, decide (a.mc = [49])⟩

/-- The client takes it so: the port is there, or it is 0 anyway, and nothing follows a 1. -/
def Plain (a : Announcement) (g : Group) : Prop :=
  (a.port = none → g.port = 0) ∧ (a.mc.head? = some 49 → a.mc = [49])

end Announcement

/-- An option that the client knows, in writing. -/
inductive Item where
  | tsize (name value : List UInt8) (hname : name.map upcase = tsizeText.map upcase) (hvalue : 0 ∉ value)
  | blksize (name value : List UInt8) (hname : name.map upcase = Tftp.blksizeText.map upcase)
      (hvalue : 0 ∉ value) (hsize : numberOf value = minPacket)
  | multicast (a : Announcement)

namespace Item

def strings : Item → List (List UInt8)
  | tsize name value _ _ => [name, value]
  | blksize name value _ _ _ => [name, value]
  | multicast a => [multicastName, a.value]

def announcement : Item → Option Announcement
  | multicast a => some a
  | _ => none

end Item

/-- An option acknowledgement in a received packet. -/
structure Oack where
  items : List Item
  body : Store
  placed : body.Has 2 (joined (items.flatMap Item.strings))

namespace Oack

def len (k : Oack) : Nat := (joined (k.items.flatMap Item.strings)).length

/-- The announcements in it. One is usual. -/
def announcements (k : Oack) : List Announcement := k.items.filterMap Item.announcement

/-- The group announced, `g` being the one so far. -/
def announce (k : Oack) (g : Group) : Group := k.announcements.foldl (fun g a => a.apply g) g

/-- `state` and `info` after `opt_get_multicast`. -/
def readBy (k : Oack) (o : Options) : Options := ((readOptions k.len o k.body).map Prod.snd).getD o

end Oack

/-- Of several announcements the last one counts. -/
def Kept (g : Group) : List Announcement → Prop
  | [] => True
  | [a] => a.Plain g
  | a :: b :: as => Kept (a.apply g) (b :: as)

/-- An acknowledgement that is too long is not looked at, so it should announce nothing new. -/
def Oack.Kept (g : Group) (k : Oack) : Prop :=
  if minPacket < k.len then k.announce g = g else Tftm.Kept g k.announcements

/-- Packets to other addresses than the client's own are taken if they are for the group. -/
def Client.ListensTo (c : Client) (ip port : Nat) : Prop :=
  ∀ p : Packet, p.ipDest ≠ c.cfg.clientIp →
    (c.awaitTftm p = true ↔ p.ipDest = ip ∧ p.dst.toNat = port ∧ 14 + 20 + 8 ≤ p.packetlen)

/-- The client does as announced after each of the acknowledgements. -/
def Follows (o : Options) (ks : List Oack) : Prop :=
  ∀ n, let now := (ks.take n).foldl (fun o k => k.readBy o) o
    let told := (ks.take n).foldl (fun g k => k.announce g) o.group
    now.group = told ∧ ∀ c : Client, c.opts = now → c.ListensTo told.ip told.port

/-! ## What the client takes it for -/

/-- The client's view of an announcement. -/
def Announcement.taken (a : Announcement) (g : Group) : Group :=
  ⟨a.addr.getD g.ip, a.port.getD 0, decide (a.mc.head? = some 49)⟩

theorem Announcement.taken_eq_apply_iff (a : Announcement) {g h : Group} (hip : h.ip = g.ip) :
    a.taken h = a.apply g ↔ a.Plain g := by
  have hport : a.port.getD 0 = a.port.getD g.port ↔ (a.port = none → g.port = 0) := by
    cases a.port <;> simp [eq_comm]
  have hmaster : (a.mc.head? = some 49 ↔ a.mc = [49]) ↔ (a.mc.head? = some 49 → a.mc = [49]) :=
    ⟨Iff.mp, fun himp => ⟨himp, fun h => by rw [h]; rfl⟩⟩
  rw [taken, apply, Plain, hip, Group.mk.injEq, hport, decide_eq_decide, hmaster]
  exact and_iff_right rfl

theorem foldl_taken_iff (as : List Announcement) (hne : as ≠ []) :
    ∀ {g h : Group}, h.ip = g.ip →
      (as.foldl (fun g a => a.taken g) h = as.foldl (fun g a => a.apply g) g ↔ Kept g as) := by
  induction as with
  | nil => exact absurd rfl hne
  | cons a as ih =>
    intro g h hip
    cases as with
    | nil => exact a.taken_eq_apply_iff hip
    | cons b as => exact ih (List.cons_ne_nil b as) (congrArg a.addr.getD hip)

namespace Item

/-- What the walk reads an item as. -/
def opt : Item → Options → Opt
  | tsize _ value _ _, _ => .tsize (numberOf value)
  | blksize .., _ => .blksize
  | multicast a, o => .multicast (a.addr.getD o.multicastIp) (a.port.getD 0) (decide (a.mc.head? = some 49))

theorem address_read (a : Announcement) (w : List UInt8) (hw : Text.NoDigit w) :
    Text.inetAton (a.addrText ++ w) = a.addr.map (·, w) ∧ (a.addr = none → a.addrText = []) := by
  have hwritten := a.addr_written
  cases haddr : a.addr with
  | none =>
    rw [haddr] at hwritten
    have hempty : a.addrText = [] := hwritten
    have hnone : Text.Digits [] := fun d hd => by cases hd
    have hnum : Text.strtoul 0 w = (0, w) := Text.strtoul_append hnone hw (by decide)
    refine ⟨?_, fun _ => hempty⟩
    rw [hempty, List.nil_append, Text.inetAton, Text.inetAtonLoop, hnum]
    exact if_pos (Or.inl rfl)
  | some ip =>
    rw [haddr] at hwritten
    exact ⟨inetAtonLoop_dotted 3 hwritten hw, fun h => by cases h⟩

theorem port_read (a : Announcement) :
    Text.Digits a.portText ∧ decimal 0 a.portText = a.port.getD 0 ∧ a.port.getD 0 < 2 ^ 16 := by
  have hwritten := a.port_written
  cases hport : a.port with
  | none =>
    rw [hport] at hwritten
    rw [show a.portText = [] from hwritten]
    exact ⟨fun d hd => absurd hd List.not_mem_nil, rfl, by decide⟩
  | some n =>
    rw [hport] at hwritten
    exact ⟨hwritten.1.digits, hwritten.1.value, hwritten.2⟩

theorem look_eq (x : Item) (rest : List (List UInt8)) : look (x.strings ++ rest) = .option x.opt rest := by
  cases x with
  | tsize name value hname hvalue => exact look_tsize rest hname
  | blksize name value hname hvalue hsize => exact look_blksize rest hname hsize
  | multicast a =>
    obtain ⟨hdigits, hvalue, hlt⟩ := port_read a
    exact look_multicast a.mc (address_read a) hdigits hvalue hlt rest

theorem walks (xs : List Item) : Walks (xs.flatMap strings) (xs.map opt) := by
  induction xs with
  | nil => exact .nil
  | cons x xs ih => exact .cons (look_eq x _) ih

theorem noNull (x : Item) : ∀ s ∈ x.strings, 0 ∉ s := by
  cases x with
  | tsize name value hname hvalue =>
    simpa [strings] using ⟨Tftp.zero_not_mem_of_upcase hname tsizeText_letters, hvalue⟩
  | blksize name value hname hvalue hsize =>
    simpa [strings] using ⟨Tftp.zero_not_mem_of_upcase hname Tftp.upcase_blksizeText, hvalue⟩
  | multicast a =>
    have haddr : 0 ∉ a.addrText := by
      have hwritten := a.addr_written
      cases haddr : a.addr with
      | none =>
        rw [haddr] at hwritten
        rw [show a.addrText = [] from hwritten]
        exact List.not_mem_nil
      | some ip =>
        rw [haddr] at hwritten
        exact Dotted.noNull 3 hwritten
    have hport : 0 ∉ a.portText := fun hz => absurd ((port_read a).1 0 hz) (by decide)
    simpa [strings, Announcement.value, a.mc_noNull, haddr, hport] using by decide

/-- The walk over items changes the group as the client takes it. -/
theorem group_foldl (xs : List Item) :
    ∀ s : Nat × Options, ((xs.map opt).foldl (fun s f => (f s.2).apply s) s).2.group =
      (xs.filterMap announcement).foldl (fun g a => a.taken g) s.2.group := by
  induction xs with
  | nil => exact fun _ => rfl
  | cons x xs ih =>
    intro s
    rw [List.map_cons, List.foldl_cons, ih]
    cases x <;> rfl

end Item

theorem Oack.readBy_group (k : Oack) (o : Options) :
    (k.readBy o).group = if minPacket < k.len then o.group
      else k.announcements.foldl (fun g a => a.taken g) o.group := by
  rw [readBy, readOptions, optGetMulticast]
  by_cases hlong : k.len > minPacket
  · rw [if_pos hlong, if_pos hlong]
    rfl
  · have hscan : 2 + minPacket ≤ scanLimit := by decide
    have hnull : ∀ s ∈ k.items.flatMap Item.strings, 0 ∉ s := by
      intro s hs
      obtain ⟨x, -, hs⟩ := List.mem_flatMap.mp hs
      exact x.noNull s hs
    have hat : At k.body (2 + k.len) 2 (k.items.flatMap Item.strings) := ⟨k.placed, rfl, hnull⟩
    rw [if_neg hlong, if_neg hlong, run_optionLoop (by omega) (Item.walks k.items) hat (by omega)]
    exact Item.group_foldl k.items (0, o)

/-- **One acknowledgement.** -/
theorem Oack.follows_iff (k : Oack) (o : Options) :
    (k.readBy o).group = k.announce o.group ↔ k.Kept o.group := by
  rw [readBy_group, Oack.Kept]
  split
  · exact eq_comm
  · rw [announce]
    cases has : k.announcements with
    | nil => exact iff_of_true rfl trivial
    | cons a as => exact foldl_taken_iff _ (List.cons_ne_nil a as) rfl

theorem listensTo_of_group {c : Client} {g : Group} (h : c.opts.group = g) : c.ListensTo g.ip g.port := by
  intro p hp
  subst h
  rw [Client.awaitTftm, if_neg hp, decide_eq_true_iff]
  exact Iff.rfl

/-- **Any sequence of acknowledgements.** -/
theorem follows_iff (ks : List Oack) :
    ∀ o, Follows o ks ↔ AllSteps (fun g k => k.announce g) (fun g k => k.Kept g) o.group ks := by
  induction ks with
  | nil =>
    refine fun o => iff_of_true (fun n => ?_) trivial
    rw [List.take_nil]
    exact ⟨rfl, fun c hc => listensTo_of_group (congrArg Options.group hc)⟩
  | cons k ks ih =>
    intro o
    constructor
    · intro h
      have hfirst : (k.readBy o).group = k.announce o.group := (h 1).1
      have hrest : Follows (k.readBy o) ks := by
        intro n
        rw [hfirst]
        exact h (n + 1)
      have hks := (ih (k.readBy o)).mp hrest
      rw [hfirst] at hks
      exact ⟨(k.follows_iff o).mp hfirst, hks⟩
    · rintro ⟨hk, hks⟩ n
      have hfirst := (k.follows_iff o).mpr hk
      change AllSteps _ _ (k.announce o.group) ks at hks
      cases n with
      | zero => exact ⟨rfl, fun c hc => listensTo_of_group (congrArg Options.group hc)⟩
      | succ n =>
        rw [← hfirst] at hks
        have hrest := (ih (k.readBy o)).mpr hks n
        rwa [hfirst] at hrest

/-! ## The walk and the announcements -/

/-- Names and values in turn. -/
def fieldStrings (fields : List (List UInt8 × List UInt8)) : List (List UInt8) :=
  fields.flatMap (fun f => [f.1, f.2])

/-- **What `opt_get_multicast` gets right.** On a payload of names and values it returns and stays inside
    exactly if the payload is too long for it or the walk ends before the payload does; and over a sequence
    of acknowledgements the client follows what is announced exactly if each of them is plain. -/
theorem multicast_options_iff {fields : List (List UInt8 × List UInt8)} {body : Store}
    (hnull : ∀ f ∈ fields, 0 ∉ f.1 ∧ 0 ∉ f.2) (hbody : body.Has 2 (joined (fieldStrings fields)))
    (o : Options) (ks : List Oack) :
    ((∃ r, readOptions (joined (fieldStrings fields)).length o body = some r) ∧
        (optGetMulticast (joined (fieldStrings fields)).length o).Within
          (2 + (joined (fieldStrings fields)).length) body ↔
      minPacket < (joined (fieldStrings fields)).length ∨ EndsInside (fieldStrings fields)) ∧
    (Follows o ks ↔ AllSteps (fun g k => k.announce g) (fun g k => k.Kept g) o.group ks) := by
  refine ⟨optGetMulticast_confined_iff o (fun s hs => ?_) hbody, follows_iff ks o⟩
  obtain ⟨f, hf, hs⟩ := List.mem_flatMap.mp hs
  rcases List.mem_cons.mp hs with rfl | hs
  · exact (hnull f hf).1
  · obtain rfl := List.mem_singleton.mp hs
    exact (hnull f hf).2

/-- `blksize` with a size that the client did not ask for, and an option that it does not know. -/
def refusedSize : List (List UInt8 × List UInt8) := [(Tftp.blksizeText, [0x35, 0x31, 0x32])]

def timeoutOption : List (List UInt8 × List UInt8) :=
  [([0x74, 0x69, 0x6d, 0x65, 0x6f, 0x75, 0x74], [0x35])]

/-- A packet with these names and values. -/
def packetOf (fields : List (List UInt8 × List UInt8)) : Store :=
  Store.splice (fun _ => 0) 2 (joined (fieldStrings fields))

/-- `,1758,1` -/
def masterChange : Announcement where
  addr := none
  port := some 1758
  mc := [49]
  addrText := []
  portText := [0x31, 0x37, 0x35, 0x38]
  addr_written := rfl
  port_written := ⟨.of_all rfl rfl rfl, by decide⟩
  mc_noNull := by decide

/-- `,,1` -/
def bareMasterChange : Announcement where
  addr := none
  port := none
  mc := [49]
  addrText := []
  portText := []
  addr_written := rfl
  port_written := rfl
  mc_noNull := by decide

/-- An acknowledgement with one announcement. -/
def Oack.only (a : Announcement) : Oack where
  items := [.multicast a]
  body := Store.splice (fun _ => 0) 2 (joined (Item.multicast a).strings)
  placed := by
    rw [List.flatMap_singleton]
    exact Store.slice_splice_self ..

/-- A client that listens to 224.0.0.9, port 1758. -/
def listening : Options := ⟨0, 1024, 0xe0000009, 1758, false⟩

theorem refusedSize_masterChange :
    ((∃ r, readOptions 12 listening (packetOf refusedSize) = some r) ∧
        (optGetMulticast 12 listening).Within 14 (packetOf refusedSize)) ∧
      Follows listening [.only masterChange] := by
  have h := multicast_options_iff (show ∀ f ∈ refusedSize, 0 ∉ f.1 ∧ 0 ∉ f.2 by decide)
    (show (packetOf refusedSize).Has 2 _ from Store.slice_splice_self ..) listening [.only masterChange]
  refine ⟨h.1.mpr (Or.inr (.stop rfl)), h.2.mpr ⟨?_, trivial⟩⟩
  exact ⟨fun hnone => absurd hnone (by decide), fun _ => rfl⟩

/-- **Where it goes wrong.** An unknown option is looked at for ever, and after an announcement without a
    port the client listens on port 0. -/
theorem timeoutOption_bareMasterChange :
    readOptions 10 listening (packetOf timeoutOption) = none ∧ ¬ Follows listening [.only bareMasterChange] := by
  refine ⟨by decide +kernel, fun h => ?_⟩
  have hkept : Oack.Kept listening.group (.only bareMasterChange) := ((follows_iff _ _).mp h).1
  cases hkept.1 rfl

end Tftm
