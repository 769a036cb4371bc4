import Etherboot.Dns.Rounds

set_option autoImplicit false

/-! # Names in questions and answers

A question has the labels of a host name with their lengths in front. `readLabels` reads them back, and
`question_labels` says that it finds the host name and that type and class follow.

In an answer a name may end with a pointer to an earlier place. `Domain` is what such a name stands for;
`awaitDns_expands` says that `await_dns` puts the same name together. `Reaches` is a run of its machine,
taken apart along the response: the questions, the name in front of the record, the record, its data. -/

namespace Dns

open Memory Prog Store

/-! ## The question -/

/-- The labels from `p` on, at most `n` of them up to the zero, and the position behind it. -/
def readLabels (q : Store) : Nat → Nat → Option (List (List UInt8) × Nat)
  | 0, _ => none
  | n + 1, p =>
    if q p = 0 then some ([], p + 1)
    else (readLabels q n (p + (q p).toNat + 1)).map fun (ls, e) =>
      (q.slice (p + 1) (q p).toNat :: ls, e)

/-- The host name with these labels. -/
def hostName (ls : List (List UInt8)) : List UInt8 := [dot].intercalate ls

theorem labels_of_not_mem {l : List UInt8} (h : dot ∉ l) : labels l = [l] := by
  induction l with
  | nil => rfl
  | cons c cs ih =>
    rw [List.mem_cons, not_or] at h
    rw [labels, if_neg (Ne.symm h.1), ih h.2]

theorem labels_append_dot {l : List UInt8} (h : dot ∉ l) (cs : List UInt8) :
    labels (l ++ dot :: cs) = l :: labels cs := by
  induction l with
  | nil =>
    rw [List.nil_append, labels, if_pos rfl]
  | cons c l ih =>
    rw [List.mem_cons, not_or] at h
    rw [List.cons_append, labels, if_neg (Ne.symm h.1), ih h.2]

theorem labels_hostName {ls : List (List UInt8)} (hne : ls ≠ []) (h : ∀ l ∈ ls, dot ∉ l) :
    labels (hostName ls) = ls := by
  induction ls with
  | nil => exact absurd rfl hne
  | cons l ls ih =>
    have hl := h l (List.mem_cons_self ..)
    cases ls with
    | nil =>
      rw [hostName, List.intercalate_singleton]
      exact labels_of_not_mem hl
    | cons m ms =>
      have hrest := ih (List.cons_ne_nil m ms) fun k hk => h k (List.mem_cons_of_mem _ hk)
      have hsplit : hostName (l :: m :: ms) = l ++ dot :: hostName (m :: ms) := by
        rfl
      rw [hsplit, labels_append_dot hl, hrest]

theorem readLabels_encodeName {q : Store} {ls : List (List UInt8)} (h : ∀ l ∈ ls, 1 ≤ l.length ∧ l.length ≤ 63)
    {n p : Nat} (hhas : q.Has p (encodeName ls ++ [0])) (hn : ls.length < n) :
    readLabels q n p = some (ls, p + (encodeName ls).length + 1) := by
  induction ls generalizing n p with
  | nil =>
    obtain ⟨n, rfl⟩ : ∃ m, n = m + 1 := Nat.exists_eq_succ_of_ne_zero (by omega)
    rw [readLabels, if_pos (has_cons.mp hhas).1]
    rfl
  | cons l ls ih =>
    obtain ⟨n, rfl⟩ : ∃ m, n = m + 1 := Nat.exists_eq_succ_of_ne_zero (by omega)
    obtain ⟨hpos, hle⟩ := h l (List.mem_cons_self ..)
    have hbytes : encodeName (l :: ls) = UInt8.ofNat l.length :: (l ++ encodeName ls) := rfl
    rw [hbytes, List.cons_append, List.append_assoc] at hhas
    obtain ⟨hlen, hrest⟩ := has_cons.mp hhas
    obtain ⟨hlabel, hbehind⟩ := has_append.mp hrest
    have hnat : (q p).toNat = l.length := by
      rw [hlen]
      exact UInt8.toNat_ofNat_of_lt (lt_of_le_of_lt hle (by decide))
    have hc : q p ≠ 0 := by
      intro hc
      rw [hc] at hnat
      exact absurd hnat.symm (by simpa using Nat.ne_of_gt hpos)
    have hplace : p + l.length + 1 = p + 1 + l.length := by omega
    rw [readLabels, if_neg hc, hnat, hplace, ih (fun m hm => h m (List.mem_cons_of_mem _ hm)) hbehind
      (by rw [List.length_cons] at hn; omega), Option.map_some, hlabel, hbytes, List.length_cons,
      List.length_append]
    rw [show p + 1 + l.length + (encodeName ls).length + 1 = p + (l.length + (encodeName ls).length + 1) + 1
      by omega]

/-- **The question for a host name** has its labels, two bytes more than the name, and then type and class;
    all of that is sent, and it ends before the place for an address. -/
theorem question_labels (ls : List (List UInt8)) (stack : Store) (hne : ls ≠ [])
    (hlabels : ∀ l ∈ ls, 1 ≤ l.length ∧ l.length ≤ 63 ∧ dot ∉ l) (hlen : (hostName ls).length ≤ 236) :
    let r := Resolver.start (hostName ls) stack
    let e := qindexQuestion + ((hostName ls).length + 2)
    (∀ n, ls.length < n → readLabels r.query n qindexQuestion = some (ls, e)) ∧
      r.query.slice e 4 = [0, querytypeA, 0, queryclassInet] ∧
      r.packet = r.query.slice 0 (e + 4) ∧ e + 4 ≤ qindexStoreA := by
  intro r e
  have hback : labels (hostName ls) = ls := labels_hostName hne fun l hl => (hlabels l hl).2.2
  have hnonempty : ∀ l ∈ labels (hostName ls), l ≠ [] := by
    rw [hback]
    intro l hl hnil
    have hpos := (hlabels l hl).1
    rw [hnil] at hpos
    cases hpos
  have hlength := length_firstName hnonempty
  have hhas := start_has hlen hnonempty stack
  rw [hback] at hhas hlength
  have hend : e = qindexQuestion + (encodeName ls).length + 1 := by
    omega
  rw [show [0, 0, querytypeA, 0, queryclassInet] = [0] ++ [0, querytypeA, 0, queryclassInet] from rfl,
    ← List.append_assoc] at hhas
  obtain ⟨hname, htail⟩ := has_append.mp hhas
  refine ⟨?_, ?_, ?_, ?_⟩
  · intro n hn
    rw [hend]
    exact readLabels_encodeName (fun l hl => ⟨(hlabels l hl).1, (hlabels l hl).2.1⟩) hname hn
  · rw [hend]
    rw [List.length_append, ← Nat.add_assoc] at htail
    exact htail
  · have hsize : e + 4 = (hostName ls).length + 18 := by
      show 12 + ((hostName ls).length + 2) + 4 = _
      omega
    rw [hsize]
    exact start_packet hlen stack
  · show 12 + ((hostName ls).length + 2) + 4 ≤ 256
    omega

/-- `www.example`. -/
theorem question_www_example :
    readLabels (Resolver.start (hostName [[119, 119, 119], [101, 120, 97, 109, 112, 108, 101]]) (fun _ => 0)).query
      3 qindexQuestion = some ([[119, 119, 119], [101, 120, 97, 109, 112, 108, 101]], 25) :=
  (question_labels [[119, 119, 119], [101, 120, 97, 109, 112, 108, 101]] (fun _ => 0) (by decide) (by decide)
    (by decide)).1 3 (by decide)

/-! ## Names in a response -/

section Response

variable (b : Store)

/-- Both high bits are clear in the length of a label and set in a pointer. -/
def wireForm (pointers : Nat → Prop) : Form :=
  ⟨fun _ => True, fun i => b i &&& 0xc0 = 0, fun i => b i &&& 0xc0 = 0xc0 ∧ pointers i⟩

/-- The name at `i`, with its pointers followed; each leads to an earlier place. -/
def Domain (i : Nat) (name : List UInt8) : Prop := Expands b (wireForm b fun i => target b i < i) i name

/-- The name at `i` ends before `e`. Only names behind the question have `pointers`. -/
def Encoded (pointers : Bool) (i e : Nat) : Prop := Ends b (wireForm b fun _ => pointers) i e

/-- The questions at `q`, each with a type and a class, end before `a`. -/
inductive Questions : Nat → Nat → Nat → Prop
  | none {q : Nat} : Questions 0 q q
  | one {n q e a : Nat} (h : Encoded b false q e) (hrest : Questions n (e + 4) a) : Questions (n + 1) q a

/-- The first answer gives a canonical name, which is at `target`. -/
def CnameResponse (target : Nat) : Prop :=
  ∃ a r, Questions b (256 * (b 4).toNat + (b 5).toNat) qindexQuestion a ∧ Encoded b true a r ∧
    b.Has r [0, querytypeCname, 0, queryclassInet] ∧ target = r + 10

end Response

/-! ## Runs of `await_dns` -/

section Leads

variable {asked : Asked} {b : Store} {s : State} {P : State → Prop}

/-- The machine comes to an end, and if it has put a name together, `P` holds there. -/
def Leads (asked : Asked) (b : Store) (P : State → Prop) (s : State) : Prop :=
  ∃ n ret, (run asked b n s).pc = .done ret ∧ (ret = .runNextA → P (run asked b n s))

theorem Leads.step (h : Leads asked b P ((step asked s).run b).1) : Leads asked b P s := by
  obtain ⟨n, ret, hn⟩ := h
  exact ⟨n + 1, ret, hn⟩

theorem leads_done {ret : Ret} (hpc : s.pc = .done ret) (h : ret = .runNextA → P s) : Leads asked b P s :=
  ⟨0, ret, hpc, h⟩

theorem leads_over {ret : Ret} (hpc : s.pc = .done ret) (hret : ret ≠ .runNextA) : Leads asked b P s :=
  leads_done hpc fun h => absurd h hret

theorem run_add (m n : Nat) : run asked b (m + n) s = run asked b n (run asked b m s) := by
  induction m generalizing s with
  | zero => rw [Nat.zero_add]; rfl
  | succ m ih => rw [Nat.succ_add, run, ih]; rfl

theorem Leads.unique (h : Leads asked b P s) {n : Nat} (hn : (run asked b n s).pc = .done .runNextA) :
    P (run asked b n s) := by
  obtain ⟨m, ret, hm, hP⟩ := h
  have hsame : run asked b m s = run asked b n s := by
    rcases Nat.le_total m n with hle | hle
    · obtain ⟨d, rfl⟩ := Nat.exists_eq_add_of_le hle
      rw [run_add, run_done hm]
    · obtain ⟨d, rfl⟩ := Nat.exists_eq_add_of_le hle
      rw [run_add, run_done hn]
  rw [hsame] at hm hP
  rw [hn] at hm
  exact hP (Pc.done.inj hm).symm

theorem Encoded.skip {q e : Nat} (h : Encoded b false q e)
    (hrest : Leads asked b P (s.goto (.name (e + 4)))) : Leads asked b P (s.goto (.question q)) := by
  induction h with
  | root h hc =>
    apply Leads.step
    show Leads asked b P (s.goto (if _ then _ else _))
    rw [if_neg (not_not.mpr hc)]
    exact hrest
  | label h hc hname ih =>
    apply Leads.step
    show Leads asked b P (s.goto (if _ then _ else _))
    rw [if_pos hc]
    exact ih hrest
  | pointer h hc => cases h.2

theorem Encoded.record {q r : Nat} (h : Encoded b true q r)
    (hrest : ∀ pc, Leads asked b P ((record asked (s.goto pc) r).run b).1) :
    Leads asked b P (s.goto (.name q)) := by
  induction h with
  | root h hc =>
    apply Leads.step
    show Leads asked b P ((readByte _ >>= _).run b).1
    rw [run_readByte_bind, run_ite, if_pos hc]
    exact hrest _
  | label hp hc hname ih =>
    have hplain : b _ &&& 0xc0 ≠ 0xc0 := ne_of_eq_of_ne hp (by decide)
    apply Leads.step
    show Leads asked b P ((readByte _ >>= _).run b).1
    rw [run_readByte_bind, run_ite, if_neg hc, run_ite, if_neg hplain]
    exact ih hrest
  | pointer h hc =>
    apply Leads.step
    show Leads asked b P ((readByte _ >>= _).run b).1
    rw [run_readByte_bind, run_ite, if_neg hc, run_ite, if_pos h.1]
    exact hrest _

theorem leads_take (found : Option (List UInt8)) {pc : Pc} (h : Leads asked b P (s.goto pc)) :
    Leads asked b P (s.take found pc) := by
  cases found with
  | none => exact h
  | some bs => exact leads_over rfl (by decide)

/-- A record with a canonical name: its address has been found, or the name is put together. -/
theorem leads_record {r : Nat} (hr : b.Has r [0, querytypeCname, 0, queryclassInet])
    (hrest : Leads asked b P (s.goto (.compose (r + 10) qindexQuestion))) :
    Leads asked b P ((record asked s r).run b).1 := by
  rw [record, run_readByte_bind, run_memcmp_if]
  split
  · next hok =>
    have hwanted : wanted asked (b (r + 1)) = querytypeCname := by
      have hsecond := (has_cons.mp (has_cons.mp hok).2).1
      rw [← hsecond]
      exact (has_cons.mp (has_cons.mp hr).2).1
    have hnot : querytypeCname ≠ querytypeA := by decide
    rw [hwanted, recordData, if_neg hnot, if_pos rfl, run_bind_of (run_cnameAddress _), run_pure]
    exact leads_take _ hrest
  · exact leads_over rfl (by decide)

/-- A name is put together, in the place of the last one. -/
structure Composed (query : Store) (written : List Nat) (k : Nat) (name : List UInt8) (f : State) :
    Prop where
  query : f.query = query.splice k (name ++ [0])
  written : ∀ j ∈ f.written, j ∈ written ∨ j < k + name.length + 1

theorem Composed.label {query : Store} {written : List Nat} {k : Nat} {label name : List UInt8} {f : State}
    (h : Composed (query.splice k label) (written ++ (List.range label.length).map (k + ·))
      (k + label.length) name f) : Composed query written k (label ++ name) f where
  query := by rw [h.query, splice_append, List.append_assoc]
  written := by
    intro j hj
    rw [List.length_append]
    rcases h.written j hj with hbefore | hlt
    · rcases List.mem_append.mp hbefore with hold | hlabel
      · exact Or.inl hold
      · obtain ⟨i, hi, rfl⟩ := List.mem_map.mp hlabel
        have := List.mem_range.mp hi
        exact Or.inr (by omega)
    · exact Or.inr (by omega)

theorem Domain.compose {i : Nat} {name : List UInt8} (h : Domain b i name) :
    ∀ (s : State) (k : Nat), Leads asked b (Composed s.query s.written k name) (s.goto (.compose i k)) := by
  induction h with
  | root h hc =>
    intro s k
    apply Leads.step
    show Leads asked b _ ((Dns.compose _ _ _).run b).1
    rw [run_compose, if_pos hc]
    refine leads_done rfl fun _ => ⟨rfl, ?_⟩
    intro j hj
    rcases List.mem_append.mp hj with hold | hnew
    · exact Or.inl hold
    · simp at hnew
      simp [hnew]
  | @label i name hp hc h ih =>
    intro s k
    apply Leads.step
    show Leads asked b _ ((Dns.compose _ _ _).run b).1
    have hplain : ¬ b i &&& 0xc0 ≠ 0 := not_not.mpr hp
    rw [run_compose, if_neg hc, if_neg hplain]
    have hlen : (b i :: b.slice (i + 1) (b i).toNat).length = (b i).toNat + 1 := by
      rw [List.length_cons, length_slice]
    have hplace : k + (b i).toNat + 1 = k + (b i :: b.slice (i + 1) (b i).toNat).length := by
      rw [hlen]
      rfl
    rw [hplace]
    obtain ⟨n, ret, hn, hlast⟩ := ih { s.put k (b i :: b.slice (i + 1) (b i).toNat) with
      cname := s.cname ++ b i :: b.slice (i + 1) (b i).toNat } (k + (b i :: b.slice (i + 1) (b i).toNat).length)
    exact ⟨n, ret, hn, fun hret => (hlast hret).label⟩
  | @pointer i name hpointer hc h ih =>
    intro s k
    have hmask : b i &&& 0xc0 ≠ 0 := ne_of_eq_of_ne hpointer.1 (by decide)
    apply Leads.step
    show Leads asked b _ ((Dns.compose _ _ _).run b).1
    rw [run_compose, if_neg hc, if_pos hmask]
    exact ih s k

theorem Questions.walk {quest a : Nat} (h : Questions b quest qindexQuestion a)
    (hrest : Leads asked b P (s.goto (.name a))) : Leads asked b P (s.goto (walkFrom quest)) := by
  cases h with
  | none =>
    exact hrest
  | @one n q e a hname hmore =>
    cases hmore with
    | none =>
      exact hname.skip hrest
    | one _ _ =>
      exact leads_over rfl (by decide)

end Leads

/-- **The canonical name of a response.** `await_dns` returns, and if it asks for another address, the query
    has the name that the response gives, with its pointers followed. -/
theorem awaitDns_expands (asked : Asked) (b query : Store) (udp : Option (Nat × Nat)) (target : Nat)
    (name : List UInt8) (hresponse : CnameResponse b target) (hname : Domain b target name)
    (hlen : name.length ≤ 240) :
    (∃ n ret, (run asked b n (start udp query)).pc = .done ret) ∧
      ∀ n, (run asked b n (start udp query)).pc = .done .runNextA →
        (run asked b n (start udp query)).query.Has qindexQuestion (name ++ [0]) ∧
        ∀ j ∈ (run asked b n (start udp query)).written, j < qindexStoreA := by
  obtain ⟨a, r, hquestions, howner, hr, rfl⟩ := hresponse
  have hleads : Leads asked b (Composed query [] qindexQuestion name) (start udp query) := by
    rw [start]
    split
    · apply Leads.step
      show Leads asked b _ ((Dns.head asked >>= _).run b).1
      rw [run_bind]
      rcases head_cases asked b with ⟨ret, hret, hpc⟩ | hpc
      · rw [hpc]
        exact leads_over rfl hret
      · rw [hpc]
        refine hquestions.walk (howner.record fun pc => leads_record hr ?_)
        exact hname.compose ⟨pc, query, [], []⟩ qindexQuestion
    · exact leads_over rfl (by decide)
  refine ⟨?_, ?_⟩
  · obtain ⟨n, ret, hn, -⟩ := hleads
    exact ⟨n, ret, hn⟩
  · intro n hn
    obtain ⟨hquery, hwritten⟩ := hleads.unique hn
    refine ⟨?_, ?_⟩
    · rw [hquery]
      exact slice_splice_self ..
    · intro j hj
      rcases hwritten j hj with hold | hlt
      · cases hold
      · show j < 256
        have hlt : j < 12 + name.length + 1 := hlt
        omega

/-- The answer for `a`: its canonical name is `b.a`, at 31, with a pointer to the question. -/
def pointedName : Store :=
  Store.splice (fun _ => 0) 0
    [0, 1, 0x80, 0, 0, 1, 0, 1, 0, 0, 0, 0, 1, 97, 0, 0, 1, 0, 1, 0xc0, 12, 0, 5, 0, 1, 0, 0, 0, 0, 0, 4,
      1, 98, 0xc0, 12]

theorem pointedName_expands :
    (run ⟨querytypeA, 1⟩ pointedName 8 (start (some (53, 53)) (fun _ => 7))).pc = .done .runNextA ∧
      (run ⟨querytypeA, 1⟩ pointedName 8 (start (some (53, 53)) (fun _ => 7))).query.Has qindexQuestion
        [1, 98, 1, 97, 0] := by
  have hquestion : Encoded pointedName false 12 15 := .label rfl (by decide) (.root trivial (by decide))
  have hresponse : CnameResponse pointedName 31 :=
    ⟨19, 21, .one hquestion .none, .pointer ⟨by decide, rfl⟩ (by decide), by decide, rfl⟩
  have ha : Domain pointedName 12 [1, 97] := .label rfl (by decide) (.root trivial (by decide))
  have hearlier : target pointedName 33 < 33 := by decide
  have hname : Domain pointedName 31 [1, 98, 1, 97] :=
    .label rfl (by decide) (.pointer ⟨by decide, hearlier⟩ (by decide) ha)
  have hrun : (run ⟨querytypeA, 1⟩ pointedName 8 (start (some (53, 53)) (fun _ => 7))).pc
      = .done .runNextA := by decide +kernel
  exact ⟨hrun, ((awaitDns_expands ⟨querytypeA, 1⟩ pointedName (fun _ => 7) (some (53, 53)) 31 [1, 98, 1, 97]
    hresponse hname (by decide)).2 8 hrun).1⟩

end Dns
