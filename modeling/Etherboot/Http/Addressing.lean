import Etherboot.Boot.Loadkernel
import Etherboot.Http.Cuts

set_option autoImplicit false

/-! # Where requests go (`http` in `core/proto_http.c`)

The first request is for the URL that `http` is called with; its server is in `arptable` and its port in
`url_port`. An answer that the file has moved gives the URL of the next one. `Client.request` has the
arguments that `tcp_transaction` is called with, and the text that is sent.

Both ways the port is lost: `tcp_transaction` is always called with 80, and the number of a `Location` is
looked for at its colon, so that it is not found and no request is made. `addressed_iff` says that nothing
else is wrong. -/

namespace Http

open Text Loadkernel Client

/-- The arguments of `tcp_transaction`, and the text that it is to send. -/
structure Request where
  address : Nat
  port : Int
  text : List UInt8
  deriving DecidableEq, Repr

/-- The port in the call of `tcp_transaction`. -/
def tcpPort : Int := 80

/-- The transaction that is to begin, or that is going on. -/
def Client.request (c : Client) : Option Request :=
  match c.phase with
  | .connecting request _ => some ⟨c.destip, tcpPort, request⟩
  | .transacting conn => some ⟨c.destip, tcpPort, conn.snd.out.sendBuffer⟩
  | .returned _ _ => none

/-! ## What is asked for -/

/-- `http://a.b.c.d[:n][/path]` -/
structure Url where
  auth : List UInt8
  ip : Nat
  port : Option Nat
  path : Option (List UInt8)
  authority : Authority auth (some ip) port

def Url.pathText (u : Url) : List UInt8 :=
  match u.path with
  | none => []
  | some path => slash :: path

def Url.text (u : Url) : List UInt8 := bytes "http://" ++ (u.auth ++ u.pathText)

/-- The request for a URL. -/
def Url.request (u : Url) : Request :=
  ⟨u.ip, (u.port.getD 80 : Nat), getRequest (u.path.getD [])⟩

/-- The request for the URL that `http` is called with; `url_port` is -1 if it has no port. -/
def bootRequest (url : List UInt8) (server : Nat) (urlPort : Int) : Request :=
  ⟨server, if urlPort = -1 then 80 else urlPort, getRequest url⟩

/-! ## Redirections -/

/-- Behind lines of a header, none of them blank, the text has the line with `u`. -/
inductive Redirects (u : Url) : List UInt8 → Prop
  | here {c : UInt8} (rest : List UInt8) (hc : ¬ (32 < c.toNat ∧ c.toNat < 128)) :
      Redirects u (bytes "Location: " ++ (u.text ++ c :: rest))
  | line {l rest : List UInt8} (hline : 10 ∉ l) (hno : ¬ bytes "Location: " <+: l)
      (hblank : rest.take 2 ≠ crlf) (h : Redirects u rest) : Redirects u (l ++ 10 :: rest)

/-- A segment moves the client to `u`: it has more of the header of an answer with a code from 300 to 399,
    or the beginning of one. -/
inductive Moves (u : Url) (s : Inbox) : List UInt8 → Prop
  | header {seg : List UInt8} (hstate : s.recvState = .header) (hrc : 300 ≤ s.rc ∧ s.rc < 400)
      (h : Redirects u seg) : Moves u s seg
  | status {version ds rest : List UInt8} {c : UInt8} {code : Nat} (hstate : s.recvState = .resultCode)
      (hversion : 32 ∉ version) (hds : Number ds code) (hcode : 300 ≤ code ∧ code < 400)
      (hc : ¬ isDigit c) (h : Redirects u (32 :: (ds ++ c :: rest))) :
      Moves u s (version ++ 32 :: (ds ++ c :: rest))

/-- The URL can stand in a `Location` line. -/
structure Url.Fits (u : Url) : Prop where
  length : u.text.length ≤ maxUrl
  graphic : ∀ c ∈ u.text, 32 < c.toNat ∧ c.toNat < 128

section Location

variable {fnc : List Call → Int} {p : Store} {u : Url} {buffer length : Nat} {l : List UInt8}

theorem slice_of_append {v w : List UInt8} (h : p.slice buffer length = v ++ w) :
    p.slice buffer v.length = v ∧ p.slice (buffer + v.length) w.length = w := by
  have hlen := congrArg List.length h
  rw [Store.length_slice, List.length_append] at hlen
  rw [hlen, Store.slice_append] at h
  exact List.append_inj h (Store.length_slice ..)

theorem length_ne_zero (h : p.slice buffer length = l) (hl : l ≠ []) : length ≠ 0 := by
  rintro rfl
  exact hl h.symm

/-- The text behind `Location:`, which may go on behind the segment. -/
theorem locationText_url (hu : u.Fits) {a : Nat} {c : UInt8} (hc : ¬ (32 < c.toNat ∧ c.toNat < 128))
    (h : p.slice a u.text.length = u.text) (hnext : p (a + u.text.length) = c) :
    locationText (p.slice a maxUrl) = u.text := by
  have hgraphic : ∀ d ∈ u.text, decide (32 < d.toNat ∧ d.toNat < 128) = true :=
    fun d hd => decide_eq_true (hu.graphic d hd)
  obtain ⟨n, hn⟩ := Nat.exists_eq_add_of_le hu.length
  rw [locationText, hn, Store.slice_append, h, List.takeWhile_append_of_pos hgraphic]
  cases n with
  | zero => exact List.append_nil _
  | succ n =>
    rw [slice_cons, hnext, List.takeWhile_cons_of_neg (by simpa using hc), List.append_nil]

theorem afterLine_append {rest : List UInt8} (h : 10 ∉ l) : afterLine (l ++ 10 :: rest) = rest := by
  induction l with
  | nil => rfl
  | cons c l ih =>
    rw [List.mem_cons, not_or] at h
    rw [List.cons_append, afterLine, if_neg (Ne.symm h.1), ih h.2]

/-- A line that is not `Location:` is not taken for it, even if it is short. -/
theorem not_location (hno : ¬ bytes "Location: " <+: l)
    (h : p.slice buffer l.length = l) (hend : p (buffer + l.length) = 10) :
    p.slice buffer 10 ≠ bytes "Location: " := by
  intro hsame
  rcases Nat.lt_or_ge l.length 10 with hlt | hge
  · have hmem : p (buffer + l.length) ∈ p.slice buffer 10 :=
      List.mem_map.mpr ⟨l.length, List.mem_range.mpr hlt, rfl⟩
    rw [hsame, hend] at hmem
    exact absurd hmem (by decide)
  · obtain ⟨n, hn⟩ := Nat.exists_eq_add_of_le hge
    rw [hn, Store.slice_append, hsame] at h
    exact hno ⟨_, h⟩

theorem recvHeader_redirects (hu : u.Fits) (h : Redirects u l) :
    ∀ {fuel buffer length : Nat} {s : Inbox}, p.slice buffer length = l → length ≤ fuel →
      300 ≤ s.rc ∧ s.rc < 400 →
      recvHeader fnc p fuel buffer length s
        = (true, { s with location := u.text, recvState := .moved }) := by
  induction h with
  | @here c rest hc =>
    intro fuel buffer length s hslice hfuel hrc
    obtain ⟨hword, hbehind⟩ := slice_of_append hslice
    obtain ⟨htext, hmore⟩ := slice_of_append hbehind
    rw [List.length_cons, slice_cons] at hmore
    have hpos := length_ne_zero hslice (List.cons_ne_nil _ _)
    obtain ⟨fuel, rfl⟩ : ∃ n, fuel = n + 1 := Nat.exists_eq_succ_of_ne_zero (by omega)
    have hlocation : locationText (p.slice (buffer + 10) maxUrl) = u.text :=
      locationText_url hu hc htext (List.cons.inj hmore).1
    rw [recvHeader, if_neg hpos, if_pos ⟨hrc, hword⟩, hlocation]
  | @line l rest hline hno hblank h ih =>
    intro fuel buffer length s hslice hfuel hrc
    obtain ⟨hl, hbehind⟩ := slice_of_append hslice
    rw [List.length_cons, slice_cons] at hbehind
    have hpos := length_ne_zero hslice (by simp)
    obtain ⟨fuel, rfl⟩ : ∃ n, fuel = n + 1 := Nat.exists_eq_succ_of_ne_zero (by omega)
    have hother := not_location hno hl (List.cons.inj hbehind).1
    obtain ⟨hnext, hle⟩ := @nextLine_eq p length buffer
    rw [hslice, afterLine_append hline] at hnext
    rw [recvHeader, if_neg hpos, if_neg (fun hloc => hother hloc.2)]
    generalize nextLine p buffer length = next at hnext hle
    obtain ⟨buffer', length'⟩ := next
    dsimp only at hnext hle ⊢
    have hnoBlank : ¬ (length' ≥ 2 ∧ p.slice buffer' 2 = bytes "\r\n") := by
      intro hcrlf
      have htake := (slice_two_iff crlf rfl).mp hcrlf
      rw [hnext] at htake
      exact hblank htake
    rw [if_neg hnoBlank]
    exact ih hnext (by omega) hrc

theorem recvTcpRequest_moves (hu : u.Fits) {s : Inbox} (h : Moves u s (p.slice buffer length)) :
    (recvTcpRequest fnc length p buffer s).2.recvState = .moved ∧
      (recvTcpRequest fnc length p buffer s).2.location = u.text := by
  generalize hseg : p.slice buffer length = seg at h
  cases h with
  | header hstate hrc h =>
    rw [recvTcpRequest, hstate]
    rw [recvHeader_redirects hu h hseg (Nat.le_refl _) hrc]
    exact ⟨rfl, rfl⟩
  | @status version ds rest c code hstate hversion hds hcode hc h =>
    have hend : NoDigit (c :: rest) := hc
    have hnumber : strtoul 0 (ds ++ c :: rest) = _ := strtoul_append hds.digits hend (by decide)
    rw [hds.value, Nat.mod_eq_of_lt (by omega)] at hnumber
    have hbmod : Int.bmod (code : Int) (2 ^ 32) = code := by
      rw [Int.bmod_def]
      split <;> omega
    rw [recvTcpRequest, hstate]
    rw [recvResultCode_blank hversion hseg, hnumber, if_neg (List.cons_ne_nil c rest), hbmod]
    have hheader : p.slice (buffer + version.length) ((ds ++ c :: rest).length + 1)
        = 32 :: (ds ++ c :: rest) := (slice_of_append hseg).2
    rw [recvHeader_redirects hu h hheader (Nat.le_refl _) (by simpa using hcode)]
    exact ⟨rfl, rfl⟩

end Location

/-! ## The next request -/

section Redirect

variable (u : Url)

theorem Url.pathText_noDigit : NoDigit u.pathText := by
  unfold Url.pathText
  split
  · trivial
  · exact slash_noDigit _

theorem redirect_url (destip : Nat) :
    redirect u.text destip = if u.port = none then some (u.ip, u.path.getD []) else none := by
  have hscheme : u.text.take 7 = bytes "http://" := rfl
  have hrest : u.text.drop 7 = u.auth ++ u.pathText := rfl
  have hpath := u.pathText_noDigit
  rw [redirect, if_neg (not_not.mpr hscheme), hrest]
  obtain ⟨auth, ip, port, path, hauth⟩ := u
  cases hauth with
  | host hquad =>
    simp only [hquad.inetAton hpath, if_true]
    cases path with
    | none => rfl
    | some path => rfl
  | @port text dn ip n hquad hn hlt =>
    have hip := hquad.inetAton (colon_noDigit dn (Url.pathText ⟨_, ip, some n, path, .port hquad hn hlt⟩))
    rw [List.append_assoc]
    simp only [hip]
    -- `strtoul` is called at the colon, and leaves it there
    rfl

end Redirect

/-! ## Runs -/

/-- The last answer gave `u` as the new place. -/
def MovedTo (c : Client) (u : Url) : Prop :=
  ∃ conn, c.done.getLast? = some conn ∧ conn.rcv.user.recvState = .moved ∧ conn.rcv.user.location = u.text

section Runs

variable (url : List UInt8) (server : Nat) (urlPort : Int)

/-- The present request is for the URL of the last answer, or for that of the call, unless it is too long. -/
structure Addressed (c : Client) : Prop where
  first : c.done = [] → url.length ≤ maxUrl → c.request = some (bootRequest url server urlPort)
  moved : ∀ u, MovedTo c u → c.request = some u.request

/-- The URL of the call has no port other than 80, and that of the last answer has none. -/
structure PortsPlain (c : Client) : Prop where
  first : c.done = [] → url.length ≤ maxUrl → urlPort = -1 ∨ urlPort = 80
  moved : ∀ u, MovedTo c u → u.port = none

/-- What the requests really are. -/
structure RequestInv (c : Client) : Prop where
  first : c.done = [] → url.length ≤ maxUrl → c.request = some ⟨server, tcpPort, getRequest url⟩
  moved : ∀ u, MovedTo c u → c.request =
    if u.port = none then some ⟨u.ip, tcpPort, getRequest (u.path.getD [])⟩ else none

variable {url server urlPort} {fnc : List Call → Int} {c : Client}

theorem RequestInv.congr {c' : Client} (h : RequestInv url server c) (hdone : c'.done = c.done)
    (hrequest : c'.request = c.request) : RequestInv url server c' where
  first := by
    rw [hdone, hrequest]
    exact h.first
  moved := by
    intro u hmoved
    rw [hrequest]
    rw [MovedTo, hdone] at hmoved
    exact h.moved u hmoved

theorem requestInv_over {conn : Conn} (hover : conn.status ≠ .waiting) :
    RequestInv url server (c.settle fnc conn) := by
  rw [settle, if_neg hover]
  have hdone : (Client.next fnc { c with done := c.done ++ [conn] } conn.rcv.user).done = c.done ++ [conn] := by
    simp only [Client.next, finish]
    split
    · split
      · split <;> rfl
      · rfl
    · split <;> rfl
  refine ⟨?_, ?_⟩
  · intro hnone
    rw [hdone] at hnone
    exact absurd hnone (by simp)
  · rintro u ⟨last, hlast, hstate, hlocation⟩
    rw [hdone, List.getLast?_concat, Option.some.injEq] at hlast
    subst hlast
    simp only [Client.next, hstate, if_true, hlocation, redirect_url]
    by_cases hport : u.port = none
    · simp only [hport, if_true]
      rfl
    · simp only [hport, if_false, finish]
      rfl

theorem acknowledge_sendBuffer (recv : Nat → Store → Nat → Inbox → Bool × Inbox)
    (s : Tcp.Sender Tcp.Outbox) (consumed synAck : Nat) :
    (s.acknowledge (Tcp.requestCallbacks recv) consumed synAck).out.sendBuffer = s.out.sendBuffer := by
  simp only [Tcp.Sender.acknowledge]
  split
  · rfl
  · split
    · simp only [Tcp.requestCallbacks, Tcp.sendTcpRequest]
    · rfl

theorem step_sendBuffer (conn : Conn) (e : Tcp.Event) :
    (conn.step (callbacks fnc) e).snd.out.sendBuffer = conn.snd.out.sendBuffer := by
  by_cases hwait : conn.status = .waiting
  · cases e with
    | timeout sends => rw [conn.step_timeout _ sends hwait, (conn.timedOut_cases sends).1]
    | packet p sends =>
      rw [conn.step_packet _ p sends hwait]
      rcases conn.gotData_snd (callbacks fnc) p sends with ⟨-, hsnd⟩ | ⟨-, hsnd⟩
      · rw [hsnd]
        exact acknowledge_sendBuffer ..
      · rw [hsnd]
  · rw [conn.step_returned _ hwait e]

/-- A transaction that has the text of the request goes on, or it is over. -/
theorem RequestInv.settle (h : RequestInv url server c) {conn : Conn}
    (hrequest : c.request = some ⟨c.destip, tcpPort, conn.snd.out.sendBuffer⟩) :
    RequestInv url server (c.settle fnc conn) := by
  by_cases hwait : conn.status = .waiting
  · rw [Client.settle, if_pos hwait]
    exact h.congr rfl hrequest.symm
  · exact requestInv_over hwait

theorem RequestInv.step (h : RequestInv url server c) (e : Event) :
    RequestInv url server (c.step fnc e) := by
  unfold Client.step
  split
  · next request inbox sendSeq buf sends hphase =>
    apply h.settle
    rw [Client.request, hphase, Tcp.Conn.start, Tcp.Conn.sendData_snd]
  · next conn e hphase =>
    apply h.settle
    rw [request, hphase, step_sendBuffer]
  · exact h

theorem start_requestInv : RequestInv url server (start url server) := by
  have hdone : (start url server).done = [] := by
    unfold start
    split <;> rfl
  refine ⟨?_, ?_⟩
  · intro _ hlen
    simp only [start, hlen, if_true]
    rfl
  · rintro u ⟨conn, hlast, -⟩
    rw [hdone] at hlast
    cases hlast

theorem RequestInv.plain_iff (h : RequestInv url server c) :
    Addressed url server urlPort c ↔ PortsPlain url urlPort c := by
  have hfirst : (c.done = [] → url.length ≤ maxUrl → c.request = some (bootRequest url server urlPort)) ↔
      (c.done = [] → url.length ≤ maxUrl → urlPort = -1 ∨ urlPort = 80) := by
    refine forall_congr' fun hdone => forall_congr' fun hlen => ?_
    rw [h.first hdone hlen, bootRequest, tcpPort, Option.some.injEq, Request.mk.injEq]
    simp only [true_and, and_true]
    split <;> omega
  have hmoved : (∀ u, MovedTo c u → c.request = some u.request) ↔ ∀ u, MovedTo c u → u.port = none := by
    refine forall_congr' fun u => forall_congr' fun hmoved => ?_
    rw [h.moved u hmoved]
    by_cases hport : u.port = none
    · rw [if_pos hport, Url.request, hport]
      exact iff_of_true rfl rfl
    · rw [if_neg hport]
      exact iff_of_false (by simp) hport
  exact ⟨fun ⟨h1, h2⟩ => ⟨hfirst.mp h1, hmoved.mp h2⟩, fun ⟨h1, h2⟩ => ⟨hfirst.mpr h1, hmoved.mpr h2⟩⟩

end Runs

/-- **Where requests go.** A `Location` in a segment is taken as it stands there; and all requests of a run
    are for the URL of the call or of the last answer exactly if these have no port of their own. -/
theorem addressed_iff (fnc : List Call → Int) (url : List UInt8) (server : Nat) (urlPort : Int) :
    (∀ (u : Url) (s : Inbox) (p : Store) (buffer length : Nat), u.Fits → Moves u s (p.slice buffer length) →
      (recvTcpRequest fnc length p buffer s).2.recvState = .moved ∧
        (recvTcpRequest fnc length p buffer s).2.location = u.text) ∧
    ∀ es, AllSteps (Client.step fnc) (fun c _ => Addressed url server urlPort c) (Client.start url server) es ↔
      AllSteps (Client.step fnc) (fun c _ => PortsPlain url urlPort c) (Client.start url server) es := by
  refine ⟨fun u s p buffer length hu h => recvTcpRequest_moves hu h, fun es => ?_⟩
  exact allSteps_iff (RequestInv url server) (fun _ _ h => h.plain_iff) (fun _ e h _ => h.step e)
    start_requestInv es

/-- `http://10.0.0.1:8080/kernel` -/
theorem port_8080_not_addressed :
    ¬ AllSteps (Client.step fun _ => 1) (fun c _ => Addressed (bytes "kernel") 0x0a000001 8080 c)
      (Client.start (bytes "kernel") 0x0a000001) [.connect 0 (fun _ => 0) true] := by
  rintro ⟨hfirst, -⟩
  have hrequest := hfirst.first rfl (by decide)
  cases hrequest

end Http
