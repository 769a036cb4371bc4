import Etherboot.Lib.Memory
import Etherboot.Lib.Transition

set_option autoImplicit false

/-! # Answers of a name server (`await_dns` in `core/dns_resolver.c`)

`await_dns` looks at the payload of a UDP packet; what it takes from it goes into the payload of the last
query. It skips the question, then the name in front of the first record, and looks at that record. An
address is copied. A canonical name is put together in place of the name in the query: labels are copied,
and a pointer says where in the payload to go on.

The function is a machine whose steps are programs on the bytes of the packet; each of its three loops takes
one label in a step. What is written to the query is kept with the positions. -/

namespace Dns

open Memory Prog

def querytypeA : UInt8 := 1
def querytypeCname : UInt8 := 5
def queryclassInet : UInt8 := 1
def udpPortDns : Nat := 53

def qindexQuestion : Nat := 12
def qindexQtype : Nat := 14
def qindexQclass : Nat := 16
def qindexStoreA : Nat := 256

/-- The return values. -/
inductive Ret where
  | packGarbag
  | gotAddr
  | runCnameQ
  | runNextA
  | cnameFail
  | nosuchname
  | dnserror
  deriving DecidableEq, Repr

inductive Pc where
  | head
  | question (q : Nat)
  | name (q : Nat)
  | compose (i k : Nat)
  | done (ret : Ret)
  deriving DecidableEq, Repr

/-- The query that an answer is for. `written` are the positions in it that have been written; `cname` is
    not in the source, it is what has been put together of a canonical name. -/
structure State where
  pc : Pc
  query : Store
  written : List Nat
  cname : List UInt8

/-- `ival`: the type and the low byte of the id of the last query. -/
structure Asked where
  type : UInt8
  id : UInt8
  deriving DecidableEq, Repr

namespace State

def goto (s : State) (pc : Pc) : State := { s with pc := pc }

/-- Bytes go into the query. -/
def put (s : State) (k : Nat) (bs : List UInt8) : State :=
  { s with
    query := s.query.splice k bs, written := s.written ++ (List.range bs.length).map (k + ·) }

end State

/-! ## The head of the packet -/

variable (asked : Asked) (s : State) (q : Nat)

/-- There is no answer for this name: a canonical name is asked for next, if an address was. -/
def noAnswer : Pc :=
  .done (if asked.type = querytypeA then .runCnameQ else .nosuchname)

/-- The number of questions decides how the walk begins. -/
def walkFrom (quest : Nat) : Pc :=
  if quest = 0 then .name qindexQuestion else if 2 ≤ quest then .done .nosuchname else .question qindexQuestion

/-- The error code and the number of questions. -/
def headRest : Prog Pc := do
  let flags ← readByte 3
  if flags &&& 0x0f = 3 then pure (noAnswer asked)
  else if flags &&& 0x0f ≠ 0 then pure (.done .nosuchname)
  else do
    let high ← readByte 4
    let low ← readByte 5
    pure (walkFrom (256 * high.toNat + low.toNat))

/-- The id, the flags and the number of answers, of which only the low byte is looked at. -/
def head : Prog Pc := do
  let mine ← memcmp 0 [0, asked.id]
  if mine then do
    let flags ← readByte 2
    if flags &&& 0xf8 ≠ 0x80 then pure (.done .packGarbag)
    else do
      let answers ← readByte 7
      if answers = 0 then pure (noAnswer asked) else headRest asked
  else pure (.done .packGarbag)

/-! ## The record -/

/-- The data of an address record, with its length at `q`. -/
def addressData : Prog (Option (List UInt8)) := do
  let four ← memcmp q [0, 4]
  if four then do
    let bs ← readBytes (q + 2) 4
    pure (some bs)
  else pure none

/-- A record with an address for the name at `i` begins with a pointer to it. -/
def reference (i : Nat) : List UInt8 :=
  [UInt8.ofNat (0xc0 + i / 256 % 16), UInt8.ofNat i, 0, querytypeA, 0, queryclassInet]

/-- The record at `a`, if it gives the address for the name at `i`. -/
def nextAddress (a i : Nat) : Prog (Option (List UInt8)) := do
  let ref ← memcmp a (reference i)
  if ref then addressData (a + 10) else pure none

/-- The record behind the one with its data length at `q`. -/
def additional : Prog (Option (List UInt8)) := do
  let high ← readByte q
  let low ← readByte (q + 1)
  nextAddress (q + 256 * high.toNat + low.toNat + 2) (q + 2)

/-- More than one answer: the next one may have the address. -/
def cnameAddress : Prog (Option (List UInt8)) := do
  let answers ← readByte 7
  if 1 < answers.toNat then additional q else pure none

/-- An address has been found, or the machine goes on at `pc`. -/
def State.take (found : Option (List UInt8)) (pc : Pc) : State :=
  match found with
  | some bs => (s.put qindexStoreA bs).goto (.done .gotAddr)
  | none => s.goto pc

/-- The data of the record, with its length at `q`. -/
def recordData (type : UInt8) (q : Nat) : Prog State :=
  if type = querytypeA then do
    let found ← addressData q
    pure (s.take found (.done .dnserror))
  else if type = querytypeCname then do
    let found ← cnameAddress q
    pure (s.take found (.compose (q + 2) qindexQuestion))
  else pure (s.goto (.done .dnserror))

/-- The type that is looked for: a canonical name is taken as an answer to a query for an address. -/
def wanted (type : UInt8) : UInt8 :=
  if type = querytypeCname ∧ asked.type = querytypeA then querytypeCname else asked.type

/-- The record at `q`, behind its name. -/
def record : Prog State := do
  let type ← readByte (q + 1)
  let ok ← memcmp q [0, wanted asked type, 0, queryclassInet]
  if ok then recordData s (wanted asked type) (q + 8) else pure (s.goto (.done .dnserror))

/-! ## The machine -/

/-- A label of the canonical name, or a pointer. -/
def compose (s : State) (i k : Nat) : Prog State := do
  let c ← readByte i
  if c = 0 then pure ((s.put k [0]).goto (.done .runNextA))
  else if c &&& 0xc0 ≠ 0 then do
    let low ← readByte (i + 1)
    pure (s.goto (.compose ((c &&& 0x3f).toNat * 256 + low.toNat) k))
  else do
    let label ← readBytes (i + 1) c.toNat
    pure { (s.put k (c :: label)).goto (.compose (i + c.toNat + 1) (k + c.toNat + 1)) with
      cname := s.cname ++ c :: label }

def step : Prog State :=
  match s.pc with
  | .head => do
      let pc ← head asked
      pure (s.goto pc)
  | .question q => do
      let c ← readByte q
      pure (s.goto (if c ≠ 0 then .question (q + c.toNat + 1) else .name (q + 5)))
  | .name q => do
      let c ← readByte q
      if c = 0 then record asked s (q + 1)
      else if c &&& 0xc0 = 0xc0 then record asked s (q + 2)
      else pure (s.goto (.name (q + c.toNat + 1)))
  | .compose i k => compose s i k
  | .done _ => pure s

/-- The machine at the beginning, for a packet that may have a UDP header, with its ports. -/
def start (udp : Option (Nat × Nat)) (query : Store) : State :=
  ⟨if udp = some (udpPortDns, udpPortDns) then .head else .done .packGarbag, query, [], []⟩

/-- Steps on the bytes of a packet. -/
def run (asked : Asked) (b : Store) : Nat → State → State
  | 0, s => s
  | n + 1, s => run asked b n ((step asked s).run b).1

end Dns
