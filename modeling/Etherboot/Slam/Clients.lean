import Etherboot.Lib.Footprint

set_option autoImplicit false

/-! # The SLAM server's clients

`mini-slamd` keeps the clients it knows in an array: the first one is asked for its status next, a
client that answers in time moves to the front, one that sends a request is put at the back. Every
change begins by taking the client out, with `del_client`, which closes the gap while it still scans the
array. The array is a list without repetitions, on which the three functions do what their names say. -/

namespace Slam

/-- `struct sockaddr_in`, with the bytes behind its fields. -/
structure SockaddrIn where
  sinFamily : UInt16
  sinPort : UInt16
  sinAddr : UInt32
  sinZero : UInt64
  deriving DecidableEq, Repr

/-- The fields that make two addresses the same client. -/
def SockaddrIn.same (a b : SockaddrIn) : Bool :=
  a.sinFamily = b.sinFamily ∧ a.sinAddr = b.sinAddr ∧ a.sinPort = b.sinPort

def slamMaxClients : Nat := 10

/-- `client` and `clients`. -/
structure Clients where
  client : Nat → SockaddrIn
  clients : Nat

/-- `memmove` of `n` elements of an array. -/
def moveElems {α : Type} (a : Nat → α) (dst src n : Nat) : Nat → α :=
  fun j => if dst ≤ j ∧ j < dst + n then a (src + (j - dst)) else a j

namespace Clients

variable (s : Clients)

/-- The gap at `i` is closed. -/
def close (i : Nat) : Clients :=
  { client := moveElems s.client i (i + 1) (s.clients - (i + 1)), clients := s.clients - 1 }

/-- The loop of `del_client` from `i` on. A turn adds one to `i` and nothing to `clients`, so that
    `clients` turns are enough. -/
def delLoop (old : SockaddrIn) : Nat → Nat → Clients → Clients
  | 0, _, s => s
  | turns + 1, i, s =>
    if i < s.clients then
      delLoop old turns (i + 1) (if (s.client i).same old then s.close i else s)
    else s

def delClient (old : SockaddrIn) : Clients := delLoop old s.clients 0 s

def addClient (new : SockaddrIn) : Clients :=
  let s := s.delClient new
  if s.clients ≥ slamMaxClients then s
  else { client := Function.update s.client s.clients new, clients := s.clients + 1 }

def pushClient (new : SockaddrIn) : Clients :=
  let s := s.delClient new
  let n := if s.clients ≥ slamMaxClients then s.clients - 1 else s.clients
  { client := Function.update (moveElems s.client 1 0 n) 0 new, clients := n + 1 }

/-- The clients, the first one first. -/
def entries : List SockaddrIn := (List.range s.clients).map s.client

end Clients

/-! ## The list of clients -/

/-- A call of one of the three functions. -/
inductive Call where
  | add (c : SockaddrIn)
  | push (c : SockaddrIn)
  | del (c : SockaddrIn)
  deriving DecidableEq, Repr

def Clients.call (s : Clients) : Call → Clients
  | .add c => s.addClient c
  | .push c => s.pushClient c
  | .del c => s.delClient c

def Clients.calls (s : Clients) (cs : List Call) : Clients := cs.foldl Clients.call s

namespace ClientList

variable (l : List SockaddrIn)

/-- All but one client, in their order. -/
def without (c : SockaddrIn) : List SockaddrIn := l.filter fun x => !x.same c

/-- What a call means for the list of clients: `del` takes its client out, `add` then puts it at the
    back of a list that is not full, `push` in front of as many others as there is room for. -/
def call : Call → List SockaddrIn
  | .add c => if (without l c).length < slamMaxClients then without l c ++ [c] else without l c
  | .push c => c :: (without l c).take (slamMaxClients - 1)
  | .del c => without l c

def calls (cs : List Call) : List SockaddrIn := cs.foldl call l

/-- No client is in the list twice. -/
def Distinct : Prop := l.Pairwise fun a b => a.same b = false

end ClientList

open ClientList

/-! ## Removal -/

theorem SockaddrIn.same_comm (a b : SockaddrIn) : a.same b = b.same a := by
  simp only [same, eq_comm]

theorem SockaddrIn.same_trans {a b c : SockaddrIn} (hab : a.same b) (hbc : b.same c) : a.same c := by
  simp only [same, decide_eq_true_eq] at hab hbc ⊢
  exact ⟨hab.1.trans hbc.1, hab.2.1.trans hbc.2.1, hab.2.2.trans hbc.2.2⟩

theorem without_eq_self {l : List SockaddrIn} {c : SockaddrIn} (h : ∀ x ∈ l, x.same c = false) :
    without l c = l :=
  List.filter_eq_self.mpr fun x hx => by simp [h x hx]

theorem not_same_of_mem_without {l : List SockaddrIn} {c x : SockaddrIn} (h : x ∈ without l c) :
    x.same c = false := by
  simpa using (List.mem_filter.mp h).2

/-- In a list without repetitions a client that is found is the only one to be taken out. -/
theorem without_split {l r : List SockaddrIn} {x c : SockaddrIn} (h : Distinct (l ++ x :: r))
    (hx : x.same c) : without (l ++ x :: r) c = l ++ r ∧ ∀ y ∈ l ++ r, y.same c = false := by
  obtain ⟨-, hr, hl⟩ := List.pairwise_append.mp h
  have hne : ∀ y ∈ l ++ r, y.same c = false := by
    intro y hy
    have hyx : y.same x = false := by
      rcases List.mem_append.mp hy with hy | hy
      · exact hl y hy x (List.mem_cons_self ..)
      · rw [SockaddrIn.same_comm]
        exact (List.pairwise_cons.mp hr).1 y hy
    rw [Bool.eq_false_iff] at hyx ⊢
    intro hyc
    exact hyx (SockaddrIn.same_trans hyc (by rwa [SockaddrIn.same_comm]))
  refine ⟨?_, hne⟩
  have hskip : without (l ++ x :: r) c = without (l ++ r) c := by simp [without, hx]
  rw [hskip, without_eq_self hne]

namespace Clients

@[simp] theorem length_entries (s : Clients) : s.entries.length = s.clients := by simp [entries]

variable {s : Clients} {i : Nat}

theorem getElem?_entries_of_lt (h : i < s.clients) : s.entries[i]? = some (s.client i) := by
  simp [entries, h]

theorem getElem?_entries_of_le (h : s.clients ≤ i) : s.entries[i]? = none := by
  simp [entries, h]

theorem entries_close (h : i < s.clients) : (s.close i).entries = s.entries.eraseIdx i := by
  refine List.ext_getElem? fun j => ?_
  have hcount : (s.close i).clients = s.clients - 1 := rfl
  rw [List.getElem?_eraseIdx]
  by_cases hj : j < i
  · have hkept : (s.close i).client j = s.client j := if_neg (by omega)
    rw [if_pos hj, getElem?_entries_of_lt (by omega), getElem?_entries_of_lt (by omega), hkept]
  rw [if_neg hj]
  by_cases hlast : j < s.clients - 1
  · have hmoved : (s.close i).client j = s.client (i + 1 + (j - i)) := if_pos (by omega)
    rw [getElem?_entries_of_lt (by omega), getElem?_entries_of_lt (by omega), hmoved,
      show i + 1 + (j - i) = j + 1 by omega]
  · rw [getElem?_entries_of_le (by omega), getElem?_entries_of_le (by omega)]

theorem delLoop_of_absent {old : SockaddrIn} (turns : Nat)
    (h : ∀ x ∈ s.entries, x.same old = false) : delLoop old turns i s = s := by
  induction turns generalizing i with
  | zero => rfl
  | succ turns ih =>
    rw [delLoop]
    split
    · next hi =>
        have hmem : s.client i ∈ s.entries := List.mem_of_getElem? (getElem?_entries_of_lt hi)
        rw [if_neg (by simp [h _ hmem])]
        exact ih
    · rfl

/-- The scan takes out the client it looks for, if it is not among the entries passed already. -/
theorem entries_delLoop {old : SockaddrIn} {turns : Nat} (hd : Distinct s.entries)
    (hturns : s.clients ≤ turns + i) (hpassed : ∀ x ∈ s.entries.take i, x.same old = false) :
    (delLoop old turns i s).entries = without s.entries old := by
  induction turns generalizing i with
  | zero =>
    rw [List.take_of_length_le (by simp; omega)] at hpassed
    rw [delLoop, without_eq_self hpassed]
  | succ turns ih =>
    rw [delLoop]
    split
    · next hi =>
        have hlen : i < s.entries.length := by simpa using hi
        have hget : s.entries[i] = s.client i := by simp [entries]
        have hsplit := List.take_append_drop i s.entries
        rw [List.drop_eq_getElem_cons hlen, hget] at hsplit
        split
        · next hsame =>
            rw [← hsplit] at hd
            obtain ⟨hwithout, hrest⟩ := without_split hd hsame
            rw [hsplit] at hwithout
            have hclose : (s.close i).entries = s.entries.take i ++ s.entries.drop (i + 1) := by
              rw [entries_close hi, List.eraseIdx_eq_take_drop_succ]
            rw [delLoop_of_absent _ (by rw [hclose]; exact hrest), hclose, hwithout]
        · next hsame =>
            refine ih (by omega) ?_
            rw [List.take_add_one, List.getElem?_eq_getElem hlen, hget]
            intro x hx
            rcases List.mem_append.mp hx with hx | hx
            · exact hpassed x hx
            · obtain rfl : x = s.client i := by simpa using hx
              simpa using hsame
    · next hi =>
        rw [List.take_of_length_le (by simp; omega)] at hpassed
        rw [without_eq_self hpassed]

theorem entries_delClient (hd : Distinct s.entries) (old : SockaddrIn) :
    (s.delClient old).entries = without s.entries old :=
  entries_delLoop hd (by omega) (by simp)

/-! ## Insertion -/

theorem entries_append (s : Clients) (c : SockaddrIn) :
    entries { client := Function.update s.client s.clients c, clients := s.clients + 1 } =
      s.entries ++ [c] := by
  simp only [entries, List.range_succ, List.map_append, List.map_cons, List.map_nil, Function.update_self]
  congr 1
  refine List.map_congr_left fun j hj => ?_
  exact Function.update_of_ne (by have := List.mem_range.mp hj; omega) ..

theorem entries_cons {n : Nat} (h : n ≤ s.clients) (c : SockaddrIn) :
    entries { client := Function.update (moveElems s.client 1 0 n) 0 c, clients := n + 1 } =
      c :: s.entries.take n := by
  simp only [entries, List.range_succ_eq_map, List.map_cons, Function.update_self, List.map_map,
    ← List.map_take, List.take_range, Nat.min_eq_left h]
  congr 1
  refine List.map_congr_left fun j hj => ?_
  have hlt := List.mem_range.mp hj
  simp only [Function.comp, Function.update_of_ne (Nat.succ_ne_zero j), moveElems]
  rw [if_pos (by omega)]
  congr 1
  omega

theorem entries_call (hd : Distinct s.entries) (hlen : s.clients ≤ slamMaxClients)
    (k : Call) : (s.call k).entries = ClientList.call s.entries k := by
  have hdel := entries_delClient hd
  have hcount (c : SockaddrIn) : (s.delClient c).clients = (without s.entries c).length := by
    rw [← hdel, length_entries]
  cases k with
  | del c => exact hdel c
  | add c =>
    simp only [call, addClient, ClientList.call, hcount]
    by_cases hfull : (without s.entries c).length < slamMaxClients
    · rw [if_neg (by omega), if_pos hfull, ← hcount, entries_append, hdel]
    · rw [if_pos (by omega), if_neg hfull, hdel]
  | push c =>
    have hle : (without s.entries c).length ≤ slamMaxClients :=
      (List.length_filter_le ..).trans (by rwa [length_entries])
    simp only [call, pushClient, ClientList.call]
    rw [entries_cons (by split <;> omega), hdel, hcount]
    by_cases hfull : (without s.entries c).length = slamMaxClients
    · rw [if_pos (by omega), hfull]
    · rw [if_neg (by omega), List.take_length, List.take_of_length_le (by omega)]

end Clients

/-! ## All calls -/

theorem Distinct.without {l : List SockaddrIn} (h : Distinct l) (c : SockaddrIn) : Distinct (without l c) :=
  List.Pairwise.filter _ h

/-- A call keeps the list within its length and free of repetitions. -/
theorem ClientList.call_keeps {l : List SockaddrIn} (hd : Distinct l)
    (hlen : l.length ≤ slamMaxClients) (k : Call) :
    (call l k).length ≤ slamMaxClients ∧ Distinct (call l k) := by
  have hle (c : SockaddrIn) : (without l c).length ≤ slamMaxClients :=
    (List.length_filter_le ..).trans hlen
  cases k with
  | del c => exact ⟨hle c, Distinct.without hd c⟩
  | add c =>
    simp only [call]
    split
    · next hroom =>
        refine ⟨by rw [List.length_append]; exact hroom, ?_⟩
        refine List.pairwise_append.mpr ⟨Distinct.without hd c, List.pairwise_singleton .., ?_⟩
        intro x hx y hy
        rw [List.mem_singleton.mp hy]
        exact not_same_of_mem_without hx
    · exact ⟨hle c, Distinct.without hd c⟩
  | push c =>
    refine ⟨?_, List.pairwise_cons.mpr ⟨?_, ?_⟩⟩
    · simp only [call, List.length_cons, List.length_take, slamMaxClients]
      omega
    · intro x hx
      rw [SockaddrIn.same_comm]
      exact not_same_of_mem_without (List.mem_of_mem_take hx)
    · exact List.Pairwise.sublist (List.take_sublist ..) (Distinct.without hd c)

/-- What one call does carries over to any number of them. -/
theorem Clients.calls_keep {s : Clients} (hd : Distinct s.entries) (hlen : s.clients ≤ slamMaxClients)
    (cs : List Call) :
    (s.calls cs).entries = ClientList.calls s.entries cs ∧ (s.calls cs).clients ≤ slamMaxClients ∧
      Distinct (s.calls cs).entries := by
  induction cs generalizing s with
  | nil => exact ⟨rfl, hlen, hd⟩
  | cons k cs ih =>
    have hstep := entries_call hd hlen k
    obtain ⟨hlen', hd'⟩ := ClientList.call_keeps hd (by rwa [length_entries]) k
    rw [← hstep] at hlen' hd'
    rw [length_entries] at hlen'
    have h := ih hd' hlen'
    rwa [hstep] at h

/-- Whatever the calls, the array holds the list they mean: at most `SLAM_MAX_CLIENTS` clients, none
    of them twice. -/
theorem Clients.entries_calls (cs : List Call) (client : Nat → SockaddrIn) :
    (calls ⟨client, 0⟩ cs).entries = ClientList.calls [] cs ∧
      (calls ⟨client, 0⟩ cs).clients ≤ slamMaxClients ∧
      Distinct (calls ⟨client, 0⟩ cs).entries := by
  have hd : Distinct (entries ⟨client, 0⟩) := List.Pairwise.nil
  exact calls_keep hd (Nat.zero_le _) cs

end Slam
