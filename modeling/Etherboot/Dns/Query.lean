import Etherboot.Dns.Answer

set_option autoImplicit false

/-! # The queries of the resolver (`donameresolution` in `core/dns_resolver.c`)

The resolver asks for the address of a name, for its canonical name if there is no address, and for the
address of the canonical name in turn. There is one query in a buffer, in which the name is replaced by the
answer. Type, class and the zero behind the name are put where the present name ends, but the datagram is
always as long as it was for the host name that the resolver was called with. -/

namespace Dns

open Memory Prog

def maxCnameRecursion : Nat := 0x30

def dot : UInt8 := 46

/-! ## Host names -/

/-- `chars_to_next_dot`: the first character is not looked at. -/
def charsToNextDot : List UInt8 → Nat
  | [] => 0
  | _ :: cs => (cs.takeWhile (· ≠ dot)).length + 1

/-- The host name in the query, with the dots replaced by lengths. -/
def nameBytes : List UInt8 → List UInt8
  | [] => []
  | c :: cs => (if c = dot then UInt8.ofNat (charsToNextDot cs) else c) :: nameBytes cs

/-- The labels of a host name. -/
def labels : List UInt8 → List (List UInt8)
  | [] => [[]]
  | c :: cs =>
    if c = dot then [] :: labels cs
    else
      match labels cs with
      | l :: ls => (c :: l) :: ls
      | [] => [[c]]

/-- Labels with their lengths, as a query has them. -/
def encodeName (ls : List (List UInt8)) : List UInt8 := ls.flatMap (fun l => UInt8.ofNat l.length :: l)

/-- The bytes are a sequence of labels with their lengths; no label is empty. -/
inductive IsName : List UInt8 → Prop
  | nil : IsName []
  | label {c : UInt8} {l rest : List UInt8} (hc : c ≠ 0) (hl : l.length = c.toNat) (h : IsName rest) :
      IsName (c :: l ++ rest)

/-! ## The resolver -/

inductive Status where
  | waiting
  | returned (rc : Nat)
  deriving DecidableEq, Repr

/-- `packet` is the payload that was sent last. `name` is not in the source: the name that is asked for, as
    labels with their lengths. -/
structure Resolver where
  query : Store
  h : Int
  hnlength : Nat
  recursion : Nat
  status : Status
  packet : List UInt8
  name : List UInt8

namespace Resolver

variable (r : Resolver)

/-- A position that depends on the length of the name. -/
def pos (k : Nat) : Nat := (k + r.h).toNat

def set (k : Nat) (v : UInt8) : Resolver := { r with query := r.query.set (r.pos k) v }

/-- The loop begins: the end of the name, the class, and the query is sent. -/
def transmit : Resolver :=
  let r := ((r.set (qindexQuestion + 1) 0).set qindexQclass 0).set (qindexQclass + 1) queryclassInet
  { r with packet := r.query.slice 0 (r.hnlength + 18) }

/-- The type of the query. -/
def setType (type : UInt8) : Resolver :=
  (r.set qindexQtype 0).set (qindexQtype + 1) type

/-- What an answer has to match. -/
def asked : Asked := ⟨r.query (r.pos (qindexQtype + 1)), r.query 1⟩

/-- The loop ends: another id, and again unless there have been too many names. -/
def next : Resolver :=
  let r := { r with
    query := (r.query.set 0 0).set 1 (r.query 1 + 1), recursion := r.recursion - 1 }
  if r.recursion = 0 then { r with status := .returned 1 } else r.transmit

/-- The loop over the labels in the query; there are not more than `n`. -/
def nameLength (query : Store) : Nat → Nat → Nat
  | 0, i => i
  | n + 1, i =>
    if query (qindexQuestion + i) = 0 then i
    else nameLength query n (i + (query (qindexQuestion + i)).toNat + 1)

/-- The result of an answer, with the query as it has left it. -/
def onResult (ret : Ret) (s : State) : Resolver :=
  let r := { r with query := s.query }
  match ret with
  | .gotAddr => { r with status := .returned 0 }
  | .runCnameQ => (r.setType querytypeCname).next
  | .runNextA =>
    ({ r with
      h := (nameLength s.query (s.cname.length + 1) 0 : Int) - 1, name := s.cname }.setType querytypeA).next
  | _ => { r with status := .returned 1 }

end Resolver

/-- No answer comes in time, or a packet comes, for which `await_dns` may take `n` steps. -/
inductive Event where
  | silence
  | packet (udp : Option (Nat × Nat)) (b : Store) (n : Nat)

namespace Resolver

/-- A packet that `await_dns` does not return from, or does not want, changes nothing. -/
def turn (r : Resolver) : Event → Resolver
  | .silence => { r with status := .returned 1 }
  | .packet udp b n =>
    let s := run r.asked b n (Dns.start udp r.query)
    match s.pc with
    | .done .packGarbag => r
    | .done result => r.onResult result s
    | _ => r

def step (r : Resolver) (e : Event) : Resolver := if r.status = .waiting then r.turn e else r

/-- The head of the first query: id 1, recursion desired, one question. -/
def header : List UInt8 := [0, 1, 1, 0, 0, 1, 0, 0, 0, 0, 0, 0]

/-- The first query. The stack holds anything. -/
def start (hostname : List UInt8) (stack : Store) : Resolver :=
  let query := stack.splice 0 (header ++ [UInt8.ofNat (charsToNextDot hostname)])
  let r : Resolver :=
    ⟨query, hostname.length, hostname.length, maxCnameRecursion, .waiting, [], encodeName (labels hostname)⟩
  if 236 < hostname.length then { r with status := .returned 1 }
  else
    ({ r with query := query.splice (qindexQuestion + 1) (nameBytes hostname) }.setType querytypeA).transmit

end Resolver

/-! ## The host name in the first query -/

theorem labels_ne_nil (cs : List UInt8) : labels cs ≠ [] := by
  cases cs with
  | nil => exact List.cons_ne_nil _ _
  | cons c cs =>
    rw [labels]
    split
    · exact List.cons_ne_nil _ _
    · split <;> exact List.cons_ne_nil _ _

variable {cs l : List UInt8} {ls : List (List UInt8)}

theorem labels_head (h : labels cs = l :: ls) : l = cs.takeWhile (· ≠ dot) := by
  induction cs generalizing l ls with
  | nil =>
    exact (List.cons.inj h).1.symm
  | cons c cs ih =>
    rw [labels] at h
    split at h
    · next hc =>
      rw [List.takeWhile_cons_of_neg (by simp [hc])]
      exact (List.cons.inj h).1.symm
    · next hc =>
      rw [List.takeWhile_cons_of_pos (by simp [hc])]
      split at h
      · next l' ls' hcs =>
        rw [← ih hcs]
        exact (List.cons.inj h).1.symm
      · next hcs => exact absurd hcs (labels_ne_nil cs)

theorem charsToNextDot_eq (h : labels cs = l :: ls) (hl : l ≠ []) : charsToNextDot cs = l.length := by
  have hhead := labels_head h
  cases cs with
  | nil => exact absurd hhead hl
  | cons c cs =>
    have hc : c ≠ dot := by
      rintro rfl
      exact hl (hhead.trans (List.takeWhile_cons_of_neg (by simp)))
    rw [List.takeWhile_cons_of_pos (by simp [hc])] at hhead
    rw [hhead, charsToNextDot, List.length_cons]

/-- If no label is empty, the dots are replaced by the lengths of the labels. -/
theorem nameBytes_eq (h : labels cs = l :: ls)
    (hls : ∀ m ∈ ls, m ≠ []) : nameBytes cs = l ++ encodeName ls := by
  induction cs generalizing l ls with
  | nil =>
    obtain ⟨rfl, rfl⟩ := List.cons.inj h
    rfl
  | cons c cs ih =>
    obtain ⟨l', ls', hcs⟩ := List.exists_cons_of_ne_nil (labels_ne_nil cs)
    rw [labels, hcs] at h
    rw [nameBytes]
    split at h
    · next hc =>
      obtain ⟨rfl, rfl⟩ := List.cons.inj h
      rw [if_pos hc, charsToNextDot_eq hcs (hls l' (List.mem_cons_self ..)),
        ih hcs (fun m hm => hls m (List.mem_cons_of_mem _ hm))]
      rfl
    · next hc =>
      obtain ⟨rfl, rfl⟩ := List.cons.inj h
      rw [if_neg hc, ih hcs hls]
      rfl

theorem length_nameBytes (cs : List UInt8) : (nameBytes cs).length = cs.length := by
  induction cs with
  | nil => rfl
  | cons c cs ih => rw [nameBytes, List.length_cons, ih, List.length_cons]

/-- **The name in the first query**, if no label is empty. -/
theorem firstName_eq (h : ∀ l ∈ labels cs, l ≠ []) :
    UInt8.ofNat (charsToNextDot cs) :: nameBytes cs = encodeName (labels cs) := by
  obtain ⟨l, ls, hcs⟩ := List.exists_cons_of_ne_nil (labels_ne_nil cs)
  rw [hcs] at h ⊢
  rw [charsToNextDot_eq hcs (h l (List.mem_cons_self ..)),
    nameBytes_eq hcs (fun m hm => h m (List.mem_cons_of_mem _ hm))]
  rfl

theorem length_label_le (h : l ∈ labels cs) : l.length ≤ cs.length := by
  induction cs generalizing l with
  | nil =>
    rw [labels, List.mem_singleton] at h
    rw [h]
  | cons c cs ih =>
    obtain ⟨l', ls', hcs⟩ := List.exists_cons_of_ne_nil (labels_ne_nil cs)
    rw [labels, hcs] at h
    rw [hcs] at ih
    split at h
    · rcases List.mem_cons.mp h with rfl | hmem
      · exact Nat.zero_le _
      · exact Nat.le_succ_of_le (ih hmem)
    · rcases List.mem_cons.mp h with rfl | hmem
      · exact Nat.succ_le_succ (ih (List.mem_cons_self ..))
      · exact Nat.le_succ_of_le (ih (List.mem_cons_of_mem _ hmem))

theorem IsName.labels_ne_nil (hlen : ∀ l ∈ ls, l.length < 256)
    (h : IsName (encodeName ls)) : ∀ l ∈ ls, l ≠ [] := by
  induction ls with
  | nil => exact fun l hl => by cases hl
  | cons l ls ih =>
    have hl := hlen l (List.mem_cons_self ..)
    have hnat : (UInt8.ofNat l.length).toNat = l.length := UInt8.toNat_ofNat_of_lt hl
    have hbytes : encodeName (l :: ls) = UInt8.ofNat l.length :: (l ++ encodeName ls) := rfl
    rw [hbytes] at h
    generalize hname : UInt8.ofNat l.length :: (l ++ encodeName ls) = name at h
    cases h with
    | nil => cases hname
    | label hc hlen' hrest =>
      obtain ⟨hhead, htail⟩ := List.cons.inj hname
      subst hhead
      obtain ⟨rfl, rfl⟩ := List.append_inj htail (by rw [hlen', hnat])
      rintro m (_ | ⟨_, hm⟩)
      · rintro rfl
        exact hc rfl
      · exact ih (fun k hk => hlen k (List.mem_cons_of_mem _ hk)) hrest m hm

end Dns
