import Etherboot.Net.Numbers
import Etherboot.Lib.Memory

set_option autoImplicit false

/-! # From a boot file name to a loader (`loadkernel` in `core/main.c`)

A file name that is a URL names a protocol, perhaps a server with a port, and a path. The protocol is looked
up in a table; with any other name, the default protocol gets the name as a whole.

The comparison with the table goes as far as the name of the protocol in the URL: a part of a protocol's name
is as good as all of it. In front of the path, each of server and port may be missing and the numbers are not
bounded. In a build with a name resolver this text is skipped once there is an address, whatever it is, and a
port with it. `dispatched_iff` shows that the rest is right. -/

namespace Loadkernel

open Text

def colon : UInt8 := 58
def slash : UInt8 := 47

/-! ## The table -/

inductive Proto where
  | tftm
  | slam
  | nfs
  | disk
  | tftp
  | http
  | fsp
  deriving DecidableEq, Repr

def Proto.name : Proto → List UInt8
  | .tftm => bytes "x-tftm"
  | .slam => bytes "x-slam"
  | .nfs => bytes "nfs"
  | .disk => bytes "file"
  | .tftp => bytes "tftp"
  | .http => bytes "http"
  | .fsp => bytes "fsp"

/-- What is compiled in. `resolve` is what `donameresolution` comes to for a host name. -/
structure Build where
  enabled : Proto → Bool
  defaultProto : Proto
  dnsResolver : Bool
  resolve : List UInt8 → Option (List UInt8)

def Build.protos (b : Build) : List Proto :=
  [.tftm, .slam, .nfs, .disk, .tftp, .http, .fsp].filter b.enabled

/-- `memcmp(name, proto->name, len) == 0`, where `len` is the length of the scheme in the file name. A scheme
    that is longer than the name of the protocol differs from the null at its end. -/
def schemeMatches (scheme : List UInt8) (p : Proto) : Bool := scheme <+: p.name

/-! ## Server and port -/

/-- Only digits and dots. -/
def Numeric (host : List UInt8) : Prop := ∀ c ∈ host, c = 46 ∨ isDigit c

instance (host : List UInt8) : Decidable (Numeric host) := List.decidableBAll _ host

/-- `dns_resolver`: the text itself, if there is no host name in it or the host is numeric. Otherwise the
    address that the name stands for, as a text, or `none`. -/
def dnsResolver (resolve : List UInt8 → Option (List UInt8)) (name : List UInt8) : Option (List UInt8) :=
  let host := name.takeWhile (fun c => c ≠ colon ∧ c ≠ slash)
  if host.length = name.length then some name
  else if host ≠ [] ∧ Numeric host then some name
  else resolve host

/-- The rest of the name, the server and the port. -/
structure Parsed where
  name : List UInt8
  ip : Nat
  port : Int
  deriving DecidableEq, Repr

/-- A port, if there is one. -/
def parsePort (name : List UInt8) (ip : Nat) : Parsed :=
  match name with
  | [] => ⟨[], ip, -1⟩
  | c :: p =>
    if c = colon then ⟨(strtoul 0 p).2, ip, Memory.int32 (strtoul 0 p).1⟩ else ⟨c :: p, ip, -1⟩

/-- `inet_aton` on the name itself. -/
def numericHost (server : Nat) (name : List UInt8) : Parsed :=
  match inetAton name with
  | some (ip, rest) => parsePort rest ip
  | none => parsePort name server

/-- The address in a text, if there is one. -/
def addressOr (server : Nat) (text : List UInt8) : Nat :=
  match inetAton text with
  | some (ip, _) => ip
  | none => server

/-- What follows the name of the protocol and `://`. -/
def parseHost (b : Build) (server : Nat) (name : List UInt8) : Parsed :=
  if name.head? = some slash then ⟨name, server, -1⟩
  else if b.dnsResolver then
    match dnsResolver b.resolve name with
    | some resolvt => parsePort (name.dropWhile (· ≠ slash)) (addressOr server resolvt)
    | none => numericHost server name
  else numericHost server name

/-! ## The loader -/

/-- The loader that is called, through the table or as the default, with its argument; the address of the
    server and `url_port` at that time. -/
structure Call where
  byTable : Bool
  loader : Proto
  arg : List UInt8
  server : Nat
  urlPort : Int
  deriving DecidableEq, Repr

/-- The name up to the first colon. -/
def schemeOf (fname : List UInt8) : List UInt8 := fname.takeWhile (· ≠ colon)

def loadkernel (b : Build) (server : Nat) (fname : List UInt8) : Call :=
  let len := (schemeOf fname).length
  match b.protos.find? (schemeMatches (schemeOf fname)) with
  | some proto =>
    if (fname.drop len).take 3 = [colon, slash, slash] then
      let parsed := parseHost b server (fname.drop (len + 3))
      if parsed.name.head? = some slash then
        ⟨true, proto, parsed.name.drop 1, parsed.ip, parsed.port⟩
      else ⟨false, b.defaultProto, fname, server, parsed.port⟩
    else ⟨false, b.defaultProto, fname, server, -1⟩
  | none => ⟨false, b.defaultProto, fname, server, -1⟩

/-! ## URLs -/

/-- The digits of `n`. -/
structure Number (ds : List UInt8) (n : Nat) : Prop where
  nonempty : ds ≠ []
  digits : Digits ds
  value : Tftp.decimal 0 ds = n

theorem Number.octet {ds : List UInt8} {n : Nat} (h : Number ds n) (hn : n ≤ 255) : Octet ds n :=
  ⟨h.nonempty, h.digits, by rw [h.value, Nat.mod_eq_of_lt (by omega)], hn⟩

/-- `a.b.c.d` -/
inductive Quad : List UInt8 → Nat → Prop
  | mk {a b c d : Nat} {da db dc dd : List UInt8} (ha : Number da a) (hb : Number db b) (hc : Number dc c)
      (hd : Number dd d) (hla : a ≤ 255) (hlb : b ≤ 255) (hlc : c ≤ 255) (hld : d ≤ 255) :
      Quad (da ++ 46 :: (db ++ 46 :: (dc ++ 46 :: dd))) (address a b c d)

/-- What stands in front of the path: nothing, `a.b.c.d` or `a.b.c.d:n`, with the server and the port. -/
inductive Authority : List UInt8 → Option Nat → Option Nat → Prop
  | none : Authority [] none none
  | host {text : List UInt8} {ip : Nat} (h : Quad text ip) : Authority text (some ip) none
  | port {text dn : List UInt8} {ip n : Nat} (h : Quad text ip) (hn : Number dn n) (hlt : n < 65536) :
      Authority (text ++ colon :: dn) (some ip) (some n)

/-- `P://auth/path` -/
def url (p : Proto) (auth path : List UInt8) : List UInt8 :=
  p.name ++ colon :: slash :: slash :: (auth ++ slash :: path)

/-- The URLs of a protocol go to its loader, and through the table no other name does. -/
def Dispatched (b : Build) (server : Nat) (fname : List UInt8) : Prop :=
  (∀ p ∈ b.protos, ∀ auth host port path, Authority auth host port → fname = url p auth path →
    loadkernel b server fname = ⟨true, p, path, host.getD server, (port.map Int.ofNat).getD (-1)⟩) ∧
  ((loadkernel b server fname).byTable = true → ∃ auth host port path, Authority auth host port ∧
    fname = url (loadkernel b server fname).loader auth path)

/-! ## What is accepted in front of a path -/

/-- Server and port, as the code takes them: each may be missing, and numbers are modulo `2^32`. -/
inductive Accepted : List UInt8 → Prop
  | none : Accepted []
  | port {ds : List UInt8} (h : Digits ds) : Accepted (colon :: ds)
  | host {text : List UInt8} {vs : List Nat} (h : Dotted 3 text vs) : Accepted text
  | both {text ds : List UInt8} {vs : List Nat} (h : Dotted 3 text vs) (hds : Digits ds) :
      Accepted (text ++ colon :: ds)

theorem slash_noDigit (path : List UInt8) : NoDigit (slash :: path) :=
  fun h : isDigit slash => absurd h (by decide)

theorem colon_noDigit (ds rest : List UInt8) : NoDigit (colon :: ds ++ rest) :=
  fun h : isDigit colon => absurd h (by decide)

theorem Quad.dotted {text : List UInt8} {ip : Nat} (h : Quad text ip) :
    ∃ vs, Dotted 3 text vs ∧ joinBytes 0 vs = ip := by
  obtain ⟨ha, hb, hc, hd, hla, hlb, hlc, hld⟩ := h
  exact ⟨_, .more (ha.octet hla) (.more (hb.octet hlb) (.more (hc.octet hlc) (.last (hd.octet hld)))),
    joinBytes_four hlb hlc hld⟩

theorem inetAton_eq_none {p : List UInt8} (h : NoDigit p) : inetAton p = none := by
  cases hp : inetAton p with
  | none => rfl
  | some r =>
    obtain ⟨text, vs, hdotted, heq, -⟩ := inetAtonLoop_split hp
    have hfirst {ds rest : List UInt8} {v : Nat} (hds : Octet ds v) (hp : p = ds ++ rest) : False := by
      obtain ⟨d, ds', rfl⟩ := List.exists_cons_of_ne_nil hds.nonempty
      rw [hp] at h
      exact h (hds.digits d (List.mem_cons_self ..))
    cases hdotted with
    | more hds hrest =>
      rw [List.append_assoc] at heq
      exact (hfirst hds heq).elim

theorem parsePort_slash {name : List UInt8} {ip : Nat} :
    (parsePort name ip).name.head? = some slash ↔
      (∃ path, name = slash :: path) ∨ ∃ ds path, Digits ds ∧ name = colon :: ds ++ slash :: path := by
  cases name with
  | nil =>
    refine iff_of_false (fun h => by cases h) ?_
    rintro (⟨path, h⟩ | ⟨ds, path, -, h⟩) <;> cases h
  | cons c p =>
    rw [parsePort]
    split
    · next hc =>
      obtain ⟨ds, hds, heq, -⟩ := strtoul_split 0 p
      constructor
      · intro h
        obtain ⟨path, hpath⟩ := List.head?_eq_some_iff.mp h
        refine Or.inr ⟨ds, path, hds, ?_⟩
        rw [hc, List.cons_append, ← hpath, ← heq]
      · rintro (⟨path, h⟩ | ⟨ds, path, hds, h⟩)
        · rw [hc] at h
          exact absurd (List.cons.inj h).1 (by decide)
        · rw [List.cons_append] at h
          rw [(List.cons.inj h).2, strtoul_append hds (slash_noDigit path) (by decide)]
          rfl
    · next hc =>
      constructor
      · intro h
        exact Or.inl ⟨p, by rw [Option.some.inj h]⟩
      · rintro (⟨path, h⟩ | ⟨ds, path, -, h⟩)
        · rw [h]
          rfl
        · exact absurd (List.cons.inj h).1 hc

variable {server : Nat} {b : Build} {p : Proto}

theorem numericHost_slash {name : List UInt8} :
    (numericHost server name).name.head? = some slash ↔
      ∃ host path, Accepted host ∧ name = host ++ slash :: path := by
  have haddr {text vs rest} (h : Dotted 3 text vs) (hrest : NoDigit rest) :
      inetAton (text ++ rest) = some (joinBytes 0 vs, rest) := inetAtonLoop_append h hrest
  constructor
  · intro h
    rw [numericHost] at h
    split at h
    · next ip rest hip =>
      obtain ⟨text, vs, hdotted, rfl, -⟩ := inetAtonLoop_split hip
      rcases parsePort_slash.mp h with ⟨path, rfl⟩ | ⟨ds, path, hds, rfl⟩
      · exact ⟨text, path, .host hdotted, rfl⟩
      · exact ⟨text ++ colon :: ds, path, .both hdotted hds, by rw [List.append_assoc]⟩
    · rcases parsePort_slash.mp h with ⟨path, rfl⟩ | ⟨ds, path, hds, rfl⟩
      · exact ⟨[], path, .none, rfl⟩
      · exact ⟨colon :: ds, path, .port hds, rfl⟩
  · rintro ⟨host, path, hhost, rfl⟩
    rw [numericHost]
    cases hhost with
    | none =>
      rw [List.nil_append, inetAton_eq_none (slash_noDigit path)]
      exact parsePort_slash.mpr (Or.inl ⟨path, rfl⟩)
    | port hds =>
      rw [inetAton_eq_none (colon_noDigit _ _)]
      exact parsePort_slash.mpr (Or.inr ⟨_, path, hds, rfl⟩)
    | host hdotted =>
      rw [haddr hdotted (slash_noDigit path)]
      exact parsePort_slash.mpr (Or.inl ⟨path, rfl⟩)
    | both hdotted hds =>
      rw [List.append_assoc, haddr hdotted (colon_noDigit _ _)]
      exact parsePort_slash.mpr (Or.inr ⟨_, path, hds, rfl⟩)

/-- A path follows, with a server in front of it that the build accepts: numeric, or any text once the name
    resolver has an address. -/
def PathFollows (b : Build) (rest : List UInt8) : Prop :=
  rest.head? = some slash ∨
    if b.dnsResolver = true ∧ (dnsResolver b.resolve rest).isSome then slash ∈ rest
    else ∃ host path, Accepted host ∧ rest = host ++ slash :: path

theorem head?_dropWhile_slash (p : List UInt8) :
    (p.dropWhile (· ≠ slash)).head? = some slash ↔ slash ∈ p := by
  induction p with
  | nil => exact iff_of_false (fun h => by cases h) List.not_mem_nil
  | cons c p ih =>
    by_cases hc : c = slash
    · rw [List.dropWhile_cons_of_neg (by simp [hc]), hc]
      exact iff_of_true rfl (List.mem_cons_self ..)
    · rw [List.dropWhile_cons_of_pos (by simp [hc]), ih, List.mem_cons]
      exact ⟨Or.inr, fun h => h.resolve_left (fun heq => hc heq.symm)⟩

theorem parsePort_dropWhile (p : List UInt8) (ip : Nat) :
    parsePort (p.dropWhile (· ≠ slash)) ip = ⟨p.dropWhile (· ≠ slash), ip, -1⟩ := by
  induction p with
  | nil => rfl
  | cons c p ih =>
    by_cases hc : c = slash
    · rw [List.dropWhile_cons_of_neg (by simp [hc]), parsePort, if_neg (by rw [hc]; decide)]
    · rw [List.dropWhile_cons_of_pos (by simp [hc]), ih]

theorem parseHost_slash {rest : List UInt8} :
    (parseHost b server rest).name.head? = some slash ↔ PathFollows b rest := by
  rw [parseHost, PathFollows]
  by_cases hhead : rest.head? = some slash
  · rw [if_pos hhead]
    exact iff_of_true hhead (Or.inl hhead)
  rw [if_neg hhead, or_iff_right hhead]
  by_cases hdns : b.dnsResolver = true
  · rw [if_pos hdns]
    cases dnsResolver b.resolve rest with
    | none =>
      rw [if_neg (fun h => Bool.false_ne_true h.2)]
      exact numericHost_slash
    | some resolvt =>
      rw [if_pos ⟨hdns, rfl⟩]
      simp only []
      rw [parsePort_dropWhile]
      exact head?_dropWhile_slash rest
  · rw [if_neg hdns, if_neg (fun h => hdns h.1)]
    exact numericHost_slash

/-! ## The protocol -/

theorem Proto.eq_of_begins {q : Proto} (h : p.name <+: q.name) : p = q := by
  revert h
  cases p <;> cases q <;> decide +kernel

theorem Proto.colon_not_mem (p : Proto) : colon ∉ p.name := by
  cases p <;> decide +kernel

theorem schemeOf_append {scheme : List UInt8} (h : colon ∉ scheme) (rest : List UInt8) :
    schemeOf (scheme ++ colon :: rest) = scheme := by
  rw [schemeOf, List.takeWhile_append_of_pos (fun c hc => ?_), List.takeWhile_cons_of_neg (by simp),
    List.append_nil]
  simp only [ne_eq, decide_not, Bool.not_eq_true', decide_eq_false_iff_not]
  rintro rfl
  exact h hc

theorem find_scheme (hp : p ∈ b.protos) : b.protos.find? (schemeMatches p.name) = some p := by
  cases hq : b.protos.find? (schemeMatches p.name) with
  | none =>
    have hno := List.find?_eq_none.mp hq p hp
    exact absurd (decide_eq_true (List.prefix_refl p.name)) hno
  | some q =>
    have hmatch : schemeMatches p.name q = true := List.find?_some hq
    rw [Proto.eq_of_begins (of_decide_eq_true hmatch)]

theorem follows_iff {fname rest : List UInt8} :
    (fname.drop (schemeOf fname).length).take 3 = [colon, slash, slash] ∧
      fname.drop ((schemeOf fname).length + 3) = rest ↔
    fname = schemeOf fname ++ colon :: slash :: slash :: rest := by
  have hsplit : fname = schemeOf fname ++ fname.drop (schemeOf fname).length := by
    have hprefix : schemeOf fname <+: fname := List.takeWhile_prefix _
    exact (List.prefix_iff_eq_append.mp hprefix).symm
  constructor
  · rintro ⟨hthree, hrest⟩
    rw [← List.drop_drop] at hrest
    rw [← List.take_append_drop 3 (fname.drop (schemeOf fname).length), hthree, hrest] at hsplit
    exact hsplit
  · intro h
    generalize schemeOf fname = scheme at h hsplit
    rw [h]
    refine ⟨?_, ?_⟩
    · rw [List.drop_left]
      rfl
    · rw [← List.drop_drop, List.drop_left]
      rfl

theorem byTable_iff {fname : List UInt8} :
    (loadkernel b server fname).byTable = true ∧ (loadkernel b server fname).loader = p ↔
      b.protos.find? (schemeMatches (schemeOf fname)) = some p ∧
        ∃ rest, fname = schemeOf fname ++ colon :: slash :: slash :: rest ∧ PathFollows b rest := by
  rw [loadkernel]
  cases hfind : b.protos.find? (schemeMatches (schemeOf fname)) with
  | none => exact iff_of_false (fun h => Bool.false_ne_true h.1) (fun h => by cases h.1)
  | some q =>
    simp only []
    by_cases hthree : (fname.drop (schemeOf fname).length).take 3 = [colon, slash, slash]
    · have hsplit := follows_iff.mp ⟨hthree, rfl⟩
      rw [if_pos hthree]
      by_cases hslash : (parseHost b server (fname.drop ((schemeOf fname).length + 3))).name.head? = some slash
      · rw [if_pos hslash]
        refine ⟨fun h => ⟨congrArg some h.2, _, hsplit, parseHost_slash.mp hslash⟩, fun h => ⟨rfl, ?_⟩⟩
        exact Option.some.inj h.1
      · rw [if_neg hslash]
        refine iff_of_false (fun h => Bool.false_ne_true h.1) ?_
        rintro ⟨-, rest, hrest, hpath⟩
        rw [(follows_iff.mpr hrest).2] at hslash
        exact hslash (parseHost_slash.mpr hpath)
    · rw [if_neg hthree]
      refine iff_of_false (fun h => Bool.false_ne_true h.1) ?_
      rintro ⟨-, rest, hrest, -⟩
      exact hthree (follows_iff.mpr hrest).1

/-! ## The URLs -/

section Url

variable {b : Build} {server : Nat} {p : Proto} {auth path : List UInt8} {ip : Nat} {text rest : List UInt8}

/-- A URL is handed to the loader of its protocol, with what `parseHost` makes of the rest. -/
theorem loadkernel_url (hp : p ∈ b.protos) {port : Int}
    (h : parseHost b server (auth ++ slash :: path) = ⟨slash :: path, ip, port⟩) :
    loadkernel b server (url p auth path) = ⟨true, p, path, ip, port⟩ := by
  have hscheme : schemeOf (url p auth path) = p.name := schemeOf_append p.colon_not_mem _
  have hsplit : url p auth path =
      schemeOf (url p auth path) ++ colon :: slash :: slash :: (auth ++ slash :: path) := by
    rw [hscheme]
    rfl
  obtain ⟨hthree, hrest⟩ := follows_iff.mpr hsplit
  rw [loadkernel, hrest, hscheme, find_scheme hp]
  simp only []
  rw [hscheme] at hthree
  rw [if_pos hthree, h]
  exact if_pos rfl

theorem parseHost_none : parseHost b server ([] ++ slash :: path) = ⟨slash :: path, server, -1⟩ :=
  if_pos rfl

theorem Quad.first (h : Quad text ip) :
    text ≠ [] ∧ (∀ c ∈ text, c = 46 ∨ isDigit c) ∧ ∀ c ∈ text, c ≠ colon ∧ c ≠ slash := by
  obtain ⟨vs, hdotted, -⟩ := h.dotted
  obtain ⟨hne, hmem⟩ := hdotted.mem
  refine ⟨hne, hmem, fun c hc => ⟨?_, ?_⟩⟩
  all_goals
    rintro rfl
    rcases hmem _ hc with heq | hdigit
    · cases heq
    · exact absurd hdigit (by decide)

theorem Quad.inetAton (h : Quad text ip) (hrest : NoDigit rest) :
    inetAton (text ++ rest) = some (ip, rest) := by
  obtain ⟨vs, hdotted, hip⟩ := h.dotted
  rw [← hip]
  exact inetAtonLoop_append hdotted hrest

theorem parseHost_numeric (hdns : b.dnsResolver = false)
    (h : Quad text ip) (hrest : NoDigit rest) : parseHost b server (text ++ rest) = parsePort rest ip := by
  obtain ⟨hne, -, hno⟩ := h.first
  obtain ⟨c, text', rfl⟩ := List.exists_cons_of_ne_nil hne
  have hhead : (c :: text' ++ rest).head? ≠ some slash := fun heq =>
    (hno c (List.mem_cons_self ..)).2 (Option.some.inj heq)
  rw [parseHost, if_neg hhead, if_neg (by rw [hdns]; decide), numericHost, h.inetAton hrest]

/-- A numeric host in a build with the name resolver: what follows is skipped up to the path. -/
theorem parseHost_dns (hdns : b.dnsResolver = true) {c : UInt8}
    (h : Quad text ip) (hc : c = colon ∨ c = slash) :
    parseHost b server (text ++ c :: rest) = ⟨(c :: rest).dropWhile (· ≠ slash), ip, -1⟩ := by
  obtain ⟨hne, hmem, hno⟩ := h.first
  have hhost : (text ++ c :: rest).takeWhile (fun c => c ≠ colon ∧ c ≠ slash) = text := by
    rw [List.takeWhile_append_of_pos (fun d hd => decide_eq_true (hno d hd)),
      List.takeWhile_cons_of_neg (by rcases hc with rfl | rfl <;> decide), List.append_nil]
  have hsame : dnsResolver b.resolve (text ++ c :: rest) = some (text ++ c :: rest) := by
    simp only [dnsResolver, hhost]
    rw [if_neg, if_pos ⟨hne, hmem⟩]
    rw [List.length_append, List.length_cons]
    omega
  have hnumber : NoDigit (c :: rest) := by
    rcases hc with rfl | rfl
    · exact colon_noDigit rest []
    · exact slash_noDigit rest
  have hhead : (text ++ c :: rest).head? ≠ some slash := by
    obtain ⟨d, text', rfl⟩ := List.exists_cons_of_ne_nil hne
    exact fun heq => (hno d (List.mem_cons_self ..)).2 (Option.some.inj heq)
  have hdrop : (text ++ c :: rest).dropWhile (· ≠ slash) = (c :: rest).dropWhile (· ≠ slash) := by
    rw [List.dropWhile_append_of_pos (fun d hd => decide_eq_true (hno d hd).2)]
  rw [parseHost, if_neg hhead, if_pos hdns, hsame]
  simp only []
  rw [parsePort_dropWhile, hdrop, addressOr, h.inetAton hnumber]

theorem loadkernel_authority (hp : p ∈ b.protos) {host port : Option Nat} (h : Authority auth host port)
    (hport : b.dnsResolver = true → port = none) :
    loadkernel b server (url p auth path) =
      ⟨true, p, path, host.getD server, (port.map Int.ofNat).getD (-1)⟩ := by
  cases h with
  | none => exact loadkernel_url hp parseHost_none
  | @host text ip hquad =>
    apply loadkernel_url hp
    cases hdns : b.dnsResolver with
    | false =>
      rw [parseHost_numeric hdns hquad (slash_noDigit path), parsePort, if_neg (by decide)]
      rfl
    | true =>
      rw [parseHost_dns hdns hquad (Or.inr rfl), List.dropWhile_cons_of_neg (by simp)]
      rfl
  | @port text dn ip n hquad hn hlt =>
    have hdns : b.dnsResolver = false := by
      cases hdns : b.dnsResolver with
      | false => rfl
      | true => cases hport hdns
    apply loadkernel_url hp
    have hnumber : strtoul 0 (dn ++ slash :: path) = _ :=
      strtoul_append hn.digits (slash_noDigit path) (by decide)
    rw [hn.value, Nat.mod_eq_of_lt (by omega)] at hnumber
    have hint : Memory.int32 (n : Int) = n := Memory.int32_of_lt (by omega) (by omega)
    rw [List.append_assoc, parseHost_numeric hdns hquad (colon_noDigit dn _), List.cons_append, parsePort,
      if_pos rfl, hnumber, hint]
    rfl

theorem loadkernel_port_lost (hp : p ∈ b.protos) (hdns : b.dnsResolver = true) {host : Option Nat} {n : Nat}
    (h : Authority auth host (some n)) : (loadkernel b server (url p auth path)).urlPort = -1 := by
  cases h with
  | @port text dn ip n hquad hn hlt =>
    have hno (c : UInt8) (hc : c ∈ colon :: dn) : c ≠ slash := by
      rintro rfl
      rcases List.mem_cons.mp hc with heq | hmem
      · cases heq
      · exact absurd (hn.digits _ hmem) (by decide)
    have hskip : (colon :: (dn ++ slash :: path)).dropWhile (· ≠ slash) = slash :: path := by
      rw [← List.cons_append, List.dropWhile_append_of_pos (fun c hc => decide_eq_true (hno c hc)),
        List.dropWhile_cons_of_neg (by simp)]
    have hparse : parseHost b server (text ++ colon :: (dn ++ slash :: path)) = _ :=
      parseHost_dns hdns hquad (Or.inl rfl)
    rw [hskip] at hparse
    rw [loadkernel_url hp (by rw [List.append_assoc]; exact hparse)]

end Url

/-! ## Right names -/

/-- The condition: with the name resolver there is no port, and where a part of a protocol's name and a text
    that the build accepts stand in front of a path, the part is all of the name and the text is of the
    documented form. -/
def Clean (b : Build) (fname : List UInt8) : Prop :=
  (b.dnsResolver = true → ∀ p ∈ b.protos, ∀ auth host n path, Authority auth host (some n) →
    fname ≠ url p auth path) ∧
  ∀ p ∈ b.protos, schemeOf fname <+: p.name → ∀ rest,
    fname = schemeOf fname ++ colon :: slash :: slash :: rest → PathFollows b rest →
      schemeOf fname = p.name ∧ ∃ auth host port path, Authority auth host port ∧ rest = auth ++ slash :: path

theorem table_iff (b : Build) (server : Nat) (fname : List UInt8) :
    ((loadkernel b server fname).byTable = true → ∃ auth host port path, Authority auth host port ∧
        fname = url (loadkernel b server fname).loader auth path) ↔
      ∀ p ∈ b.protos, schemeOf fname <+: p.name → ∀ rest,
        fname = schemeOf fname ++ colon :: slash :: slash :: rest → PathFollows b rest →
          schemeOf fname = p.name ∧
            ∃ auth host port path, Authority auth host port ∧ rest = auth ++ slash :: path := by
  constructor
  · intro h p hp hbegins rest hrest hpath
    cases hfind : b.protos.find? (schemeMatches (schemeOf fname)) with
    | none => exact absurd (decide_eq_true hbegins) (List.find?_eq_none.mp hfind p hp)
    | some q =>
      have hcalled : (loadkernel b server fname).byTable = true ∧ (loadkernel b server fname).loader = q :=
        byTable_iff.mpr ⟨hfind, rest, hrest, hpath⟩
      obtain ⟨htable, hloader⟩ := hcalled
      obtain ⟨auth, host, port, path, hauth, hurl⟩ := h htable
      rw [hloader] at hurl
      have hname : schemeOf fname = q.name := by
        rw [hurl]
        exact schemeOf_append q.colon_not_mem _
      rw [hname] at hbegins hrest
      rw [hname, Proto.eq_of_begins hbegins]
      refine ⟨rfl, auth, host, port, path, hauth, ?_⟩
      have htail := List.append_cancel_left (hrest.symm.trans hurl)
      exact (List.cons.inj (List.cons.inj (List.cons.inj htail).2).2).2
  · intro h htable
    obtain ⟨hfind, rest, hrest, hpath⟩ := byTable_iff.mp ⟨htable, rfl⟩
    have hmatch : schemeMatches (schemeOf fname) _ = true := List.find?_some hfind
    obtain ⟨hname, auth, host, port, path, hauth, rfl⟩ :=
      h _ (List.mem_of_find?_eq_some hfind) (of_decide_eq_true hmatch) rest hrest hpath
    rw [hname] at hrest
    exact ⟨auth, host, port, path, hauth, hrest⟩

/-- **Boot file names.** In every build, a file name is dispatched as it should be exactly if it is clean. -/
theorem dispatched_iff (b : Build) (server : Nat) (fname : List UInt8) :
    Dispatched b server fname ↔ Clean b fname := by
  rw [Dispatched, Clean, table_iff]
  apply and_congr_left
  intro _
  constructor
  · rintro h hdns p hp auth host n path hauth rfl
    have hport := congrArg Call.urlPort (h p hp auth host (some n) path hauth rfl)
    rw [loadkernel_port_lost hp hdns hauth] at hport
    exact absurd hport (by
      show ¬ (-1 : Int) = (n : Int)
      omega)
  · rintro h p hp auth host port path hauth rfl
    refine loadkernel_authority hp hauth (fun hdns => ?_)
    cases port with
    | none => rfl
    | some n => exact absurd rfl (h hdns p hp auth host n path hauth)

def allProtos (dns : Bool) : Build := ⟨fun _ => true, .tftp, dns, fun _ => none⟩

theorem Number.one (c : UInt8) (h : isDigit c) : Number [c] (c.toNat - 48) :=
  ⟨List.cons_ne_nil _ _, fun d hd => (List.mem_singleton.mp hd).symm ▸ h, by
    show 0 * 10 + (c.toNat - 48) = _
    omega⟩

theorem Authority.ne_colon {auth path rest : List UInt8} {host port : Option Nat} (h : Authority auth host port) :
    auth ++ slash :: path ≠ colon :: rest := by
  have hquad {text tail : List UInt8} {ip : Nat} (hq : Quad text ip) : text ++ tail ≠ colon :: rest := by
    obtain ⟨hne, -, hdelim⟩ := hq.first
    obtain ⟨c, text', rfl⟩ := List.exists_cons_of_ne_nil hne
    exact fun hcons => (hdelim c (List.mem_cons_self ..)).1 (List.cons.inj hcons).1
  cases h with
  | none => exact fun hcons => absurd (List.cons.inj hcons).1 (by decide)
  | host hq => exact hquad hq
  | port hq hn hlt =>
    rw [List.append_assoc]
    exact hquad hq

/-- One letter chooses a loader, a port without a server does, and a port is lost. -/
theorem letter_chooses_and_port_lost :
    ¬ Dispatched (allProtos false) 0 (bytes "t://1.2.3.4/x") ∧
      ¬ Dispatched (allProtos false) 0 (bytes "tftp://:5/x") ∧
      ¬ Dispatched (allProtos true) 0 (bytes "tftp://1.2.3.4:5/x") := by
  refine ⟨?_, ?_, ?_⟩
  · rintro ⟨-, htable⟩
    obtain ⟨auth, host, port, path, -, hurl⟩ := htable (by decide +kernel)
    have hname := (congrArg schemeOf hurl).trans (schemeOf_append (Proto.colon_not_mem _) _)
    exact absurd hname (by decide +kernel)
  · rintro ⟨-, htable⟩
    have hclean := (table_iff _ _ _).mp htable .tftp (by decide) (by decide +kernel) (bytes ":5/x")
      (by decide +kernel) (.inr ⟨_, [120], .port (Number.one 53 (by decide)).digits, by decide +kernel⟩)
    obtain ⟨-, auth, host, port, path, hauth, hrest⟩ := hclean
    exact hauth.ne_colon hrest.symm
  · rintro ⟨hform, -⟩
    have hquad : Quad (bytes "1.2.3.4") (address 1 2 3 4) :=
      .mk (Number.one 49 (by decide)) (Number.one 50 (by decide)) (Number.one 51 (by decide))
        (Number.one 52 (by decide)) (by decide) (by decide) (by decide) (by decide)
    have hcall := hform .tftp (by decide) _ _ _ (bytes "x")
      (.port hquad (Number.one 53 (by decide)) (by decide)) (by decide +kernel)
    exact absurd (congrArg Call.urlPort hcall) (by decide +kernel)

end Loadkernel
