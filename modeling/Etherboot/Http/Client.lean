import Etherboot.Net.Address
import Etherboot.Tcp.Request

set_option autoImplicit false

/-! # The HTTP client (`core/proto_http.c`)

`http` fetches a file by `GET` requests, with a TCP transaction for each; an answer that the file has
moved leads to the next one. `recv_tcp_request` reads the answer as it comes: the result code, the
header line by line, then the file, which it passes to `fnc` in blocks. At the end `http` passes on
what is left, with `eof` set.

`fnc` may be any function: what it returns depends on all its calls so far. -/

namespace Http

open Text

/-- `BLOCKSIZE` -/
def blockSize : Nat := 512

/-- `MAX_URL` -/
def maxUrl : Nat := 80

inductive RecvState where
  | resultCode
  | header
  | data
  | error
  | moved
  deriving DecidableEq, Repr

/-- A call of `fnc`. -/
structure Call where
  data : List UInt8
  block : Nat
  eof : Bool
  deriving DecidableEq, Repr

/-- The part of `struct send_recv_state` that `recv_tcp_request` uses. `recvBuffer` has the first
    `recv_length` bytes of `recv_buffer`. The last field is not in the source: the calls of `fnc`. -/
structure Inbox where
  recvBuffer : List UInt8
  block : Nat
  recvState : RecvState
  rc : Int
  location : List UInt8
  calls : List Call
  deriving DecidableEq, Repr

/-- `fnc(recv_buffer, ++block, recv_length, eof)` -/
def Inbox.pass (s : Inbox) (eof : Bool) : Inbox :=
  { s with block := s.block + 1, calls := s.calls ++ [⟨s.recvBuffer, s.block + 1, eof⟩] }

/-! ## `recv_tcp_request` -/

section Recv

variable (fnc : List Call → Int) (p : Store)

/-- The file's bytes. Every turn of the loop takes at least one, so that as many turns as there are
    bytes are enough. -/
def recvData : Nat → Nat → Nat → Inbox → Bool × Inbox
  | 0, _, _, s => (true, s)
  | fuel + 1, buffer, length, s =>
    if length = 0 then (true, s)
    else
      let copyLength := min (blockSize - s.recvBuffer.length) length
      let s := { s with recvBuffer := s.recvBuffer ++ p.slice buffer copyLength }
      if s.recvBuffer.length = blockSize then
        let s := s.pass false
        if fnc s.calls = 0 then (false, s)
        else recvData fuel (buffer + copyLength) (length - copyLength) { s with recvBuffer := [] }
      else recvData fuel (buffer + copyLength) (length - copyLength) s

/-- The beginning of the next line. -/
def nextLine : Nat → Nat → Nat × Nat
  | buffer, 0 => (buffer, 0)
  | buffer, length + 1 => if p buffer = 10 then (buffer + 1, length) else nextLine (buffer + 1) length

/-- The text up to the first byte that is not above a blank, as a signed `char`. -/
def locationText (text : List UInt8) : List UInt8 :=
  text.takeWhile (fun c => decide (32 < c.toNat ∧ c.toNat < 128))

/-- The lines of the header. The comparison with `Location:` and the copy of what follows do not stop
    at the end of the segment. -/
def recvHeader : Nat → Nat → Nat → Inbox → Bool × Inbox
  | 0, _, _, s => (true, s)
  | fuel + 1, buffer, length, s =>
    if length = 0 then (true, s)
    else if (300 ≤ s.rc ∧ s.rc < 400) ∧ p.slice buffer 10 = bytes "Location: " then
      (true,
        { s with location := locationText (p.slice (buffer + 10) maxUrl), recvState := .moved })
    else
      let (buffer, length) := nextLine p buffer length
      if length ≥ 2 ∧ p.slice buffer 2 = bytes "\r\n" then
        recvData fnc p (length - 2) (buffer + 2) (length - 2) { s with recvState := .data }
      else recvHeader fuel buffer length s

/-- The result code is the number behind the first blank. One that goes on to the end of the segment
    is refused, so that it does not matter that `strtoul` goes on behind it. -/
def recvResultCode : Nat → Nat → Inbox → Bool × Inbox
  | _, 0, s => (false, { s with recvState := .error })
  | buffer, length + 1, s =>
    if p buffer = 32 then
      let (rc, rest) := strtoul 0 (p.slice (buffer + 1) length)
      if rest = [] then (false, { s with recvState := .error })
      else
        recvHeader fnc p (length + 1) buffer (length + 1)
          { s with rc := Int.bmod rc (2 ^ 32), recvState := .header }
    else recvResultCode (buffer + 1) length s

def recvTcpRequest (length : Nat) (p : Store) (buffer : Nat) (s : Inbox) : Bool × Inbox :=
  match s.recvState with
  | .resultCode => recvResultCode fnc p buffer length s
  | .header => recvHeader fnc p length buffer length s
  | .data => recvData fnc p length buffer length s
  | .error | .moved => (true, s)

end Recv

/-! ## `http` -/

abbrev Conn := Tcp.Conn Tcp.Outbox Inbox

inductive Phase where
  | connecting (request : List UInt8) (inbox : Inbox)
  | transacting (conn : Conn)
  | returned (rc : Int) (inbox : Inbox)

/-- `http` before a transaction, in one, or at its end. The last field is not in the source: the
    transactions that are over. -/
structure Client where
  phase : Phase
  destip : Nat
  done : List Conn

/-- `tcp_transaction` is called, or one of its turns. -/
inductive Event where
  | connect (sendSeq : Nat) (buf : Store) (sends : Bool)
  | tcp (e : Tcp.Event)

/-- `sprintf(buf, GET, url)` -/
def getRequest (url : List UInt8) : List UInt8 := bytes "GET /" ++ url ++ bytes " HTTP/1.0\r\n\r\n"

/-- Where an answer points to: the address, if it has one, and the path. The port is read and not
    used. -/
def redirect (location : List UInt8) (destip : Nat) : Option (Nat × List UInt8) :=
  if location.take 7 ≠ bytes "http://" then none
  else
    let url := location.drop 7
    let (destip, url) :=
      match inetAton url with
      | some (ip, rest) => (ip, rest)
      | none => (destip, url.dropWhile (fun c => decide (c ≠ 58 ∧ c ≠ 47)))
    let url := if url.head? = some 58 then (strtoul 0 url).2 else url
    match if url = [] then [47] else url with
    | c :: url => if c = 47 then some (destip, url) else none
    | [] => none

namespace Client

variable (fnc : List Call → Int)

/-- The end of `http`. -/
def finish (c : Client) (inbox : Inbox) : Client :=
  if inbox.rc = 200 then
    { c with phase := .returned (fnc (inbox.pass true).calls) (inbox.pass true) }
  else { c with phase := .returned 0 inbox }

/-- What follows `tcp_transaction`, whatever it returned. -/
def next (c : Client) (inbox : Inbox) : Client :=
  if inbox.recvState = .moved then
    let inbox := { inbox with rc := -1, block := 0 }
    match redirect inbox.location c.destip with
    | none => c.finish fnc inbox
    | some (destip, url) =>
      { c with
        destip := destip
        phase := .connecting (getRequest url)
          { inbox with recvState := .resultCode, recvBuffer := [] } }
  else c.finish fnc inbox

/-- A transaction waits, or it is over. -/
def settle (c : Client) (conn : Conn) : Client :=
  if conn.status = .waiting then { c with phase := .transacting conn }
  else { c with done := c.done ++ [conn] }.next fnc conn.rcv.user

def callbacks : Tcp.Callbacks Tcp.Outbox Inbox := Tcp.requestCallbacks (recvTcpRequest fnc)

def step (c : Client) (e : Event) : Client :=
  match c.phase, e with
  | .connecting request inbox, .connect sendSeq buf sends =>
    c.settle fnc (Tcp.Conn.start sendSeq buf ⟨request, 0⟩ inbox sends)
  | .transacting conn, .tcp e => c.settle fnc (conn.step (callbacks fnc) e)
  | _, _ => c

/-- `http(url, fnc)`, where `server` is the address in `arptable[ARP_SERVER]`. -/
def start (url : List UInt8) (server : Nat) : Client :=
  let inbox : Inbox :=
    { recvBuffer := [], block := 0, recvState := .resultCode, rc := -1, location := url.take maxUrl,
      calls := [] }
  if url.length ≤ maxUrl then ⟨.connecting (getRequest url) inbox, server, []⟩
  else ⟨.returned 0 inbox, server, []⟩

end Client

end Http
