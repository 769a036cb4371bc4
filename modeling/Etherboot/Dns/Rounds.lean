import Etherboot.Dns.Query
import Etherboot.Dns.Safety

set_option autoImplicit false

/-! # Query after query

`AwaitInv` follows the query through `await_dns`: it is left alone, or its name is replaced by a canonical
name. From that, `Holds` follows it through the rounds of the resolver. The only thing that does not follow
the name is the length of the datagram. -/

namespace Dns

open Memory Prog Store Resolver

/-! ## The query during an answer -/

theorem IsName.append_label {name : List UInt8} (h : IsName name) {c : UInt8} {l : List UInt8} (hc : c ≠ 0)
    (hl : l.length = c.toNat) : IsName (name ++ c :: l) := by
  induction h with
  | nil =>
    have hone := IsName.label hc hl .nil
    rw [List.append_nil] at hone
    exact hone
  | label hc' hl' h ih =>
    rw [List.append_assoc]
    exact .label hc' hl' ih

/-- What is known of the query `q` that an answer is for. -/
def AwaitInv (q : Store) (s : State) : Prop :=
  match s.pc with
  | .head | .question _ | .name _ | .done .runCnameQ => s.query = q ∧ s.cname = []
  | .compose _ k =>
    k = qindexQuestion + s.cname.length ∧ IsName s.cname ∧ s.query = q.splice qindexQuestion s.cname
  | .done .runNextA => IsName s.cname ∧ s.query = q.splice qindexQuestion (s.cname ++ [0])
  | .done _ => True

section Await

variable {asked : Asked} {b q : Store} {s : State}

theorem awaitInv_goto (hq : s.query = q) (hname : s.cname = []) {pc : Pc}
    (hcompose : ∀ i k, pc = .compose i k → k = qindexQuestion) (hnext : pc ≠ .done .runNextA) :
    AwaitInv q (s.goto pc) := by
  cases pc with
  | compose i k =>
    obtain rfl := hcompose i k rfl
    refine ⟨?_, ?_, ?_⟩
    · show _ = qindexQuestion + s.cname.length
      rw [hname]
      rfl
    · show IsName s.cname
      rw [hname]
      exact .nil
    · show s.query = q.splice qindexQuestion s.cname
      rw [hname, splice_nil, hq]
  | done result =>
    cases result with
    | runNextA => exact absurd rfl hnext
    | runCnameQ => exact ⟨hq, hname⟩
    | _ => trivial
  | _ => exact ⟨hq, hname⟩

theorem awaitInv_over {result : Ret} (h : result ≠ .runNextA) (hq : s.query = q) (hname : s.cname = []) :
    AwaitInv q (s.goto (.done result)) :=
  awaitInv_goto hq hname (fun i k hik => by cases hik) (fun heq => h (Pc.done.inj heq))

theorem awaitInv_take (found : Option (List UInt8)) {pc : Pc} (h : AwaitInv q (s.goto pc)) :
    AwaitInv q (s.take found pc) := by
  cases found with
  | none => exact h
  | some bs => trivial

theorem awaitInv_record (hq : s.query = q) (hname : s.cname = []) (r : Nat) :
    AwaitInv q ((record asked s r).run b).1 := by
  have herror : AwaitInv q (s.goto (.done .dnserror)) := awaitInv_over (by decide) hq hname
  rw [record, run_readByte_bind, run_memcmp_if]
  split
  · rw [recordData, run_ite]
    split
    · rw [run_bind_of (run_addressData _), run_pure]
      exact awaitInv_take _ herror
    · split
      · rw [run_bind_of (run_cnameAddress _), run_pure]
        refine awaitInv_take _ (awaitInv_goto hq hname (fun i k hik => ?_) (fun heq => by cases heq))
        exact (Pc.compose.inj hik).2.symm
      · exact herror
  · exact herror

theorem awaitInv_head (hq : s.query = q) (hname : s.cname = []) :
    AwaitInv q (s.goto ((head asked).run b).1) := by
  rcases head_cases asked b with ⟨ret, hret, hpc⟩ | hpc
  · rw [hpc]
    exact awaitInv_over hret hq hname
  · rw [hpc, walkFrom]
    split_ifs
    · exact ⟨hq, hname⟩
    · exact awaitInv_over (by decide) hq hname
    · exact ⟨hq, hname⟩

theorem awaitInv_compose {i k : Nat} (hk : k = qindexQuestion + s.cname.length) (hname : IsName s.cname)
    (hq : s.query = q.splice qindexQuestion s.cname) : AwaitInv q ((compose s i k).run b).1 := by
  subst hk
  have hput (bs : List UInt8) : (s.put (qindexQuestion + s.cname.length) bs).query =
      q.splice qindexQuestion (s.cname ++ bs) := by
    show s.query.splice _ bs = _
    rw [hq, splice_append]
  rw [run_compose]
  split
  · exact ⟨hname, hput [0]⟩
  · next hc =>
    split
    · exact ⟨rfl, hname, hq⟩
    · refine ⟨?_, hname.append_label hc (length_slice ..), hput _⟩
      show _ = qindexQuestion + (s.cname ++ b i :: b.slice (i + 1) (b i).toNat).length
      rw [List.length_append, List.length_cons, length_slice]
      omega

theorem AwaitInv.step (h : AwaitInv q s) : AwaitInv q ((step asked s).run b).1 := by
  obtain ⟨pc, query, written, cname⟩ := s
  cases pc with
  | head =>
    show AwaitInv q ((Dns.head asked >>= _).run b).1
    rw [run_bind]
    exact awaitInv_head h.1 h.2
  | question r =>
    show AwaitInv q (State.goto _ (if b r ≠ 0 then _ else _))
    split <;> exact h
  | name r =>
    show AwaitInv q ((readByte r >>= _).run b).1
    rw [run_readByte_bind, run_ite]
    split
    · exact awaitInv_record h.1 h.2 _
    · split
      · exact awaitInv_record h.1 h.2 _
      · exact h
  | compose i k => exact awaitInv_compose h.1 h.2.1 h.2.2
  | done result => exact h

theorem AwaitInv.run (h : AwaitInv q s) (n : Nat) : AwaitInv q (run asked b n s) := by
  induction n generalizing s with
  | zero => exact h
  | succ n ih => exact ih h.step

theorem start_awaitInv (udp : Option (Nat × Nat)) (q : Store) : AwaitInv q (start udp q) := by
  rw [start]
  split
  · exact ⟨rfl, rfl⟩
  · trivial

end Await

/-! ## Rounds -/

theorem nameLength_eq {query : Store} {name : List UInt8} (h : IsName name) {n i : Nat}
    (hhas : query.Has (qindexQuestion + i) (name ++ [0])) (hn : name.length < n) :
    nameLength query n i = i + name.length := by
  induction h generalizing n i with
  | nil =>
    obtain ⟨n, rfl⟩ : ∃ m, n = m + 1 := Nat.exists_eq_succ_of_ne_zero (by omega)
    rw [nameLength, if_pos (has_cons.mp hhas).1]
    rfl
  | label hc hl h ih =>
    obtain ⟨n, rfl⟩ : ∃ m, n = m + 1 := Nat.exists_eq_succ_of_ne_zero (by omega)
    rw [List.cons_append, List.cons_append, List.append_assoc] at hhas
    obtain ⟨hlen, hrest⟩ := has_cons.mp hhas
    rw [List.length_append, List.length_cons] at hn
    rw [nameLength, if_neg (hlen.symm ▸ hc), hlen]
    have hbehind := (has_append.mp hrest).2
    rw [hl, Nat.add_assoc, Nat.add_assoc, Nat.add_comm 1, ← Nat.add_assoc i] at hbehind
    rw [ih hbehind (by omega), List.length_append, List.length_cons, hl]
    omega

/-- The payload that was sent last is the query, and if the name is one, the query holds it with its end,
    type and class. -/
structure Holds (r : Resolver) : Prop where
  packet : r.packet = r.query.slice 0 (r.hnlength + 18)
  name : IsName r.name → r.h = (r.name.length : Int) - 1 ∧
    ∃ t, (t = querytypeA ∨ t = querytypeCname) ∧
      r.query.Has qindexQuestion (r.name ++ [0, 0, t, 0, queryclassInet])

section Round

variable {r : Resolver}

theorem pos_eq {n : Nat} (h : r.h = (n : Int) - 1) (k : Nat) : r.pos (k + 1) = k + n := by
  rw [pos, h]
  omega

theorem transmit_has {t : UInt8} (hh : r.h = (r.name.length : Int) - 1)
    (hhas : r.query.Has qindexQuestion r.name) (hzero : r.query (13 + r.name.length) = 0)
    (htype : r.query (14 + r.name.length) = t) :
    r.transmit.query.Has qindexQuestion (r.name ++ [0, 0, t, 0, queryclassInet]) := by
  have hhas : r.query.Has 12 r.name := hhas
  show (((r.query.set (r.pos 13) 0).set (r.pos 16) 0).set (r.pos 17) queryclassInet).Has 12
    (r.name ++ [0, 0, t, 0, queryclassInet])
  rw [pos_eq hh 12, pos_eq hh 15, pos_eq hh 16]
  refine has_append.mpr ⟨?_, ?_⟩
  · exact ((Store.Has.set hhas _ (Or.inr (by omega))).set _ (Or.inr (by omega))).set _ (Or.inr (by omega))
  · have hend (q : Store) (p : Nat) : q.Has p [] := rfl
    simp only [has_cons, hend, and_true]
    refine ⟨?_, ?_, ?_, ?_, ?_⟩
    · rw [set_of_ne _ _ (by omega), set_of_ne _ _ (by omega), set_self]
    · rw [set_of_ne _ _ (by omega), set_of_ne _ _ (by omega), set_of_ne _ _ (by omega), Nat.add_right_comm]
      exact hzero
    · rw [set_of_ne _ _ (by omega), set_of_ne _ _ (by omega), set_of_ne _ _ (by omega),
        Nat.add_right_comm 12, Nat.add_right_comm]
      exact htype
    · rw [set_of_ne _ _ (by omega), show 12 + r.name.length + 1 + 1 + 1 = 15 + r.name.length by omega,
        set_self]
    · rw [show 12 + r.name.length + 1 + 1 + 1 + 1 = 16 + r.name.length by omega, set_self]

theorem transmit_holds {t : UInt8} (ht : t = querytypeA ∨ t = querytypeCname)
    (hname : IsName r.name → r.h = (r.name.length : Int) - 1 ∧ r.query.Has qindexQuestion r.name ∧
      r.query (13 + r.name.length) = 0 ∧ r.query (14 + r.name.length) = t) : Holds r.transmit := by
  refine ⟨rfl, fun hn => ?_⟩
  obtain ⟨hh, hhas, hzero, htype⟩ := hname hn
  exact ⟨hh, t, ht, transmit_has hh hhas hzero htype⟩

theorem setType_query {n : Nat} (h : r.h = (n : Int) - 1) (t : UInt8) :
    (r.setType t).query = (r.query.set (13 + n) 0).set (14 + n) t := by
  rw [← pos_eq h 13, ← pos_eq h 14]
  rfl

theorem setType_has (hh : r.h = (r.name.length : Int) - 1) (hhas : r.query.Has qindexQuestion r.name)
    (t : UInt8) : (r.setType t).query.Has qindexQuestion r.name ∧
      (r.setType t).query (13 + r.name.length) = 0 ∧ (r.setType t).query (14 + r.name.length) = t := by
  have hhas : r.query.Has 12 r.name := hhas
  rw [setType_query hh]
  refine ⟨?_, ?_, set_self ..⟩
  · exact (Store.Has.set hhas _ (Or.inr (by omega))).set _ (Or.inr (by omega))
  · rw [set_of_ne _ _ (by omega), set_self]

theorem next_holds {t : UInt8} (ht : t = querytypeA ∨ t = querytypeCname)
    (hname : IsName r.name → r.h = (r.name.length : Int) - 1 ∧ r.query.Has qindexQuestion r.name)
    (hw : (r.setType t).next.status = .waiting) : Holds (r.setType t).next := by
  simp only [Resolver.next] at hw ⊢
  split at hw
  · cases hw
  · next hrec =>
    rw [if_neg hrec]
    refine transmit_holds ht (fun hn => ?_)
    obtain ⟨hh, hhas⟩ := hname hn
    obtain ⟨hset, hzero, htype⟩ := setType_has hh hhas t
    -- the id is in front of the name
    refine ⟨hh, ?_, ?_, ?_⟩
    · exact (hset.set _ (Or.inl (by decide))).set _ (Or.inl (by decide))
    · show (((r.setType t).query.set 0 0).set 1 _) (13 + r.name.length) = 0
      rw [set_of_ne _ _ (by omega), set_of_ne _ _ (by omega), hzero]
    · show (((r.setType t).query.set 0 0).set 1 _) (14 + r.name.length) = t
      rw [set_of_ne _ _ (by omega), set_of_ne _ _ (by omega), htype]

theorem onResult_holds (h : Holds r) {result : Ret} {s : State} (hpc : s.pc = .done result)
    (hs : AwaitInv r.query s) (hw : (r.onResult result s).status = .waiting) :
    Holds (r.onResult result s) := by
  rw [AwaitInv, hpc] at hs
  cases result with
  | runCnameQ =>
    refine next_holds (Or.inr rfl) (fun hn => ?_) hw
    obtain ⟨hh, t, -, hhas⟩ := h.name hn
    refine ⟨hh, ?_⟩
    rw [hs.1]
    exact (has_append.mp hhas).1
  | runNextA =>
    obtain ⟨hname, hquery⟩ := hs
    have hhas : s.query.Has qindexQuestion (s.cname ++ [0]) := by
      rw [hquery]
      exact slice_splice_self ..
    refine next_holds (Or.inl rfl) (fun _ => ⟨?_, (has_append.mp hhas).1⟩) hw
    rw [nameLength_eq hname hhas (Nat.lt_succ_self _), Nat.zero_add]
  | gotAddr => cases hw
  | _ => cases hw

/-- The invariant of the resolver. -/
def QueryInv (r : Resolver) : Prop := r.status = .waiting → Holds r

theorem QueryInv.step (h : QueryInv r) (e : Event) : QueryInv (r.step e) := by
  rw [Resolver.step]
  split
  swap
  · exact h
  next hst =>
  cases e with
  | silence => exact fun hw => by cases hw
  | packet udp b n =>
    have hs : AwaitInv r.query (run r.asked b n (start udp r.query)) := (start_awaitInv udp r.query).run n
    simp only [turn]
    split
    · exact h
    · next hpc => exact onResult_holds (h hst) hpc hs
    · exact h

section First

variable {hostname : List UInt8}

theorem length_firstName (hlabels : ∀ l ∈ labels hostname, l ≠ []) :
    (encodeName (labels hostname)).length = hostname.length + 1 := by
  rw [← firstName_eq hlabels, List.length_cons, length_nameBytes]

theorem start_eq (hlen : hostname.length ≤ 236) (stack : Store) :
    Resolver.start hostname stack = (Resolver.setType ⟨
      (stack.splice 0 (header ++ [UInt8.ofNat (charsToNextDot hostname)])).splice
        (qindexQuestion + 1) (nameBytes hostname),
      hostname.length, hostname.length, maxCnameRecursion, .waiting, [],
      encodeName (labels hostname)⟩ querytypeA).transmit := by
  rw [Resolver.start, if_neg (by omega)]

theorem start_packet (hlen : hostname.length ≤ 236) (stack : Store) :
    (Resolver.start hostname stack).packet
      = (Resolver.start hostname stack).query.slice 0 (hostname.length + 18) := by
  rw [start_eq hlen]
  rfl

theorem start_has (hlen : hostname.length ≤ 236) (hlabels : ∀ l ∈ labels hostname, l ≠ [])
    (stack : Store) : (Resolver.start hostname stack).query.Has qindexQuestion
      (encodeName (labels hostname) ++ [0, 0, querytypeA, 0, queryclassInet]) := by
  have hlength := length_firstName hlabels
  have hh : (hostname.length : Int) = ((encodeName (labels hostname)).length : Int) - 1 := by
    omega
  -- head and first length, then the rest of the name
  have hname : Store.Has ((stack.splice 0 (header ++ [UInt8.ofNat (charsToNextDot hostname)])).splice
      (0 + (header ++ [UInt8.ofNat (charsToNextDot hostname)]).length) (nameBytes hostname)) 12
      (encodeName (labels hostname)) := by
    rw [splice_append, List.append_assoc, List.singleton_append, firstName_eq hlabels]
    have hall := slice_splice_self stack 0 (header ++ encodeName (labels hostname))
    exact (has_append.mp hall).2
  rw [start_eq hlen]
  obtain ⟨hset, hzero, htype⟩ := setType_has (r := ⟨_, _, _, maxCnameRecursion, .waiting, [], _⟩) hh hname
    querytypeA
  exact transmit_has hh hset hzero htype

end First

theorem start_queryInv (hostname : List UInt8) (stack : Store) :
    QueryInv (Resolver.start hostname stack) := by
  intro hw
  have hlen : hostname.length ≤ 236 := by
    by_contra hlong
    rw [Resolver.start, if_pos (by omega)] at hw
    cases hw
  have hlabel (l : List UInt8) (hl : l ∈ labels hostname) : l.length < 256 := by
    have := length_label_le hl
    omega
  have hname : (Resolver.start hostname stack).name = encodeName (labels hostname) := by
    rw [start_eq hlen]
    rfl
  have hnlength : (Resolver.start hostname stack).hnlength = hostname.length := by
    rw [start_eq hlen]
    rfl
  refine ⟨?_, fun hn => ?_⟩
  · rw [hnlength, start_packet hlen]
  · rw [hname] at hn ⊢
    have hlabels := IsName.labels_ne_nil hlabel hn
    refine ⟨?_, querytypeA, Or.inl rfl, start_has hlen hlabels stack⟩
    rw [length_firstName hlabels, start_eq hlen]
    show (hostname.length : Int) = _
    omega

end Round

/-! ## Proper queries -/

/-- The payload sent last consists of the head, the name with its end, type and class. -/
def LastProper (r : Resolver) : Prop :=
  r.status = .waiting → IsName r.name ∧ ∃ head t, head.length = qindexQuestion ∧
    (t = querytypeA ∨ t = querytypeCname) ∧ r.packet = head ++ r.name ++ [0, 0, t, 0, queryclassInet]

/-- The condition: the name is a sequence of labels that are not empty, and it is as long as the host name
    was. -/
def NameFits (r : Resolver) : Prop :=
  r.status = .waiting → IsName r.name ∧ r.name.length = r.hnlength + 1

theorem lastProper_iff {r : Resolver} (h : QueryInv r) : LastProper r ↔ NameFits r := by
  apply forall_congr'
  intro hw
  obtain ⟨hpacket, hname⟩ := h hw
  apply and_congr_right
  intro hn
  constructor
  · rintro ⟨head, t, hhead, -, heq⟩
    have hlen := congrArg List.length (hpacket.symm.trans heq)
    rw [length_slice, List.length_append, List.length_append, hhead] at hlen
    simp only [List.length_cons, List.length_nil, qindexQuestion] at hlen
    omega
  · intro hlen
    obtain ⟨-, t, ht, hhas⟩ := hname hn
    refine ⟨r.query.slice 0 qindexQuestion, t, length_slice .., ht, ?_⟩
    have hsum : r.hnlength + 18 = qindexQuestion + (r.name ++ [0, 0, t, 0, queryclassInet]).length := by
      rw [List.length_append, hlen]
      simp only [List.length_cons, List.length_nil, qindexQuestion]
      omega
    have hrest : r.query.slice (0 + qindexQuestion) (r.name ++ [0, 0, t, 0, queryclassInet]).length =
        r.name ++ [0, 0, t, 0, queryclassInet] := hhas
    rw [hpacket, hsum, slice_append, hrest, List.append_assoc]

/-- **The queries of a resolution.** Each is the head, the name that is asked for, type and class, exactly
    if each name is as long as the host name and has no empty label. -/
theorem queries_proper_iff (hostname : List UInt8) (stack : Store) (es : List Event) :
    AllSteps Resolver.step (fun r _ => LastProper r) (Resolver.start hostname stack) es ↔
      AllSteps Resolver.step (fun r _ => NameFits r) (Resolver.start hostname stack) es :=
  allSteps_iff QueryInv (fun _ _ h => lastProper_iff h) (fun _ e h _ => h.step e)
    (start_queryInv hostname stack) es

/-- The answer for `a`: its canonical name is `bb`, at 23. -/
def longerName : Store :=
  Store.splice (fun _ => 0) 0
    [0, 1, 0x80, 0, 0, 0, 0, 1, 0, 0, 0, 0, 0, 0, 5, 0, 1, 0, 0, 0, 0, 0, 4, 2, 98, 98, 0]

/-- The query for `bb` is as long as the one for `a` was: the low byte of the class is missing. -/
theorem longer_name_cut : ¬ AllSteps Resolver.step (fun r _ => LastProper r) (Resolver.start [97] (fun _ => 0))
    [.packet (some (udpPortDns, udpPortDns)) longerName 10, .silence] := by
  rintro ⟨-, hlast, -⟩
  obtain ⟨-, head, t, hhead, -, hpacket⟩ := hlast (by decide +kernel)
  have hlen := congrArg List.length hpacket
  rw [List.length_append, List.length_append, hhead] at hlen
  simp only [List.length_cons, List.length_nil] at hlen
  revert hlen
  decide +kernel

end Dns
