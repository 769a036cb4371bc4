import Etherboot.Dns.Answer

set_option autoImplicit false

/-! # Which answers are handled safely

`Proper` is what an answer has to be like: its names come to an end inside the datagram, the fields that are
looked at lie inside it, and the canonical name, with its pointers followed, comes to an end and fits into
the query. Nothing in `await_dns` tests that. `awaitDns_safe_iff` shows that it is exactly what is needed for
the function to return, to look at the datagram only and to write into the query only. What it comes to
then depends on the datagram alone (`answer_from_datagram`). -/

namespace Dns

open Memory Prog

/-! ## Names in a packet

A name is a sequence of labels with their lengths in front, up to a zero or a pointer. The three loops of
`await_dns` differ in what they take for a label and for a pointer. -/

/-- Where a name may end, go on with a label or go on with a pointer. -/
structure Form where
  root : Nat → Prop
  label : Nat → Prop
  pointer : Nat → Prop

section Names

variable (b : Store) (N : Nat)

/-- Where the pointer at `i` leads to. -/
def target (i : Nat) : Nat := (b i &&& 0x3f).toNat * 256 + (b (i + 1)).toNat

/-- The name at `i` ends before `e`. -/
inductive Ends (form : Form) : Nat → Nat → Prop
  | root {i : Nat} (h : form.root i) (hc : b i = 0) : Ends form i (i + 1)
  | label {i e : Nat} (h : form.label i) (hc : b i ≠ 0) (hrest : Ends form (i + (b i).toNat + 1) e) :
      Ends form i e
  | pointer {i : Nat} (h : form.pointer i) (hc : b i ≠ 0) : Ends form i (i + 2)

/-- The name at `i`, with its pointers followed. -/
inductive Expands (form : Form) : Nat → List UInt8 → Prop
  | root {i : Nat} (h : form.root i) (hc : b i = 0) : Expands form i []
  | label {i : Nat} {name : List UInt8} (h : form.label i) (hc : b i ≠ 0)
      (hrest : Expands form (i + (b i).toNat + 1) name) :
      Expands form i (b i :: b.slice (i + 1) (b i).toNat ++ name)
  | pointer {i : Nat} {name : List UInt8} (h : form.pointer i) (hc : b i ≠ 0)
      (hrest : Expands form (target b i) name) : Expands form i name

/-- The question is skipped with all lengths taken for those of labels; they are among the first `N` bytes. -/
def questionForm : Form := ⟨(· < N), (· < N), fun _ => False⟩

/-- The name of a record ends at a pointer. -/
def nameForm : Form :=
  ⟨(· < N), fun i => i < N ∧ b i &&& 0xc0 ≠ 0xc0, fun i => i < N ∧ b i &&& 0xc0 = 0xc0⟩

/-- A canonical name is copied, all of it among the first `N` bytes. One of the two bits makes a pointer. -/
def composeForm : Form :=
  ⟨(· < N), fun i => i + (b i).toNat < N ∧ b i &&& 0xc0 = 0, fun i => i + 1 < N ∧ b i &&& 0xc0 ≠ 0⟩

end Names

/-! ## Proper answers -/

/-- Room for the query, and for an address behind it. -/
def querySize : Nat := 260

section Proper

variable (asked : Asked) (N : Nat) (b : Store)

/-- The data of an address record. -/
def AddressInside (q : Nat) : Prop := q + b.compared q [0, 4] ≤ N ∧ (b.Has q [0, 4] → q + 6 ≤ N)

/-- The record behind the one with its data length at `q`. -/
def nextRecord (q : Nat) : Nat := q + 256 * (b q).toNat + (b (q + 1)).toNat + 2

/-- The next record gives the address. -/
def Refers (q : Nat) : Prop :=
  b.Has (nextRecord b q) (reference (q + 2)) ∧ b.Has (nextRecord b q + 10) [0, 4]

/-- What is looked at of the next record lies inside. -/
def NextInside (q : Nat) : Prop :=
  q + 2 ≤ N ∧ nextRecord b q + b.compared (nextRecord b q) (reference (q + 2)) ≤ N ∧
    (b.Has (nextRecord b q) (reference (q + 2)) → AddressInside N b (nextRecord b q + 10))

/-- A canonical name: the address is in the next record, or the name can be put together. -/
def CnameProper (q : Nat) : Prop :=
  7 < N ∧ (1 < (b 7).toNat → NextInside N b q) ∧
    (¬ (1 < (b 7).toNat ∧ Refers b q) →
      ∃ name, Expands b (composeForm b N) (q + 2) name ∧ qindexQuestion + name.length < querySize)

def DataProper (type : UInt8) (q : Nat) : Prop :=
  if type = querytypeA then AddressInside N b q
  else if type = querytypeCname then CnameProper N b q
  else True

def RecordProper (q : Nat) : Prop :=
  q + 2 ≤ N ∧ q + b.compared q [0, wanted asked (b (q + 1)), 0, queryclassInet] ≤ N ∧
    (b.Has q [0, wanted asked (b (q + 1)), 0, queryclassInet] →
      DataProper N b (wanted asked (b (q + 1))) (q + 8))

/-- The answer section at `q`. -/
def AnswerProper (q : Nat) : Prop := ∃ r, Ends b (nameForm b N) q r ∧ RecordProper asked N b r

/-- A packet with answers and without an error. -/
def WalkProper (quest : Nat) : Prop :=
  if quest = 0 then AnswerProper asked N b qindexQuestion
  else if 2 ≤ quest then True
  else ∃ e, Ends b (questionForm N) qindexQuestion e ∧ AnswerProper asked N b (e + 4)

/-- **What a packet has to be like.** -/
def Proper : Prop :=
  b.compared 0 [0, asked.id] ≤ N ∧ (b.Has 0 [0, asked.id] → 3 ≤ N ∧ (b 2 &&& 0xf8 = 0x80 → 8 ≤ N ∧
    (b 7 ≠ 0 → b 3 &&& 0x0f = 0 → WalkProper asked N b (256 * (b 4).toNat + (b 5).toNat))))

end Proper

/-! ## Safe runs -/

/-- After `n` steps the machine is at its end; on its way it has looked at the first `N` bytes only, and what
    it has written lies inside the query. -/
structure SafeIn (asked : Asked) (N : Nat) (b : Store) (n : Nat) (s : State) : Prop where
  done : ∃ ret, (run asked b n s).pc = .done ret
  reads : ∀ k < n, (step asked (run asked b k s)).Within N b
  writes : ∀ i ∈ (run asked b n s).written, i < querySize

def Safe (asked : Asked) (N : Nat) (b : Store) (s : State) : Prop := ∃ n, SafeIn asked N b n s

section Safe

variable {asked : Asked} {N : Nat} {b : Store} {s : State}

theorem run_done {ret : Ret} (h : s.pc = .done ret) (n : Nat) : run asked b n s = s := by
  induction n with
  | zero => rfl
  | succ n ih =>
    have hstep : ((step asked s).run b).1 = s := by
      rw [step, h]
      rfl
    rw [run, hstep, ih]

theorem safe_done {ret : Ret} (h : s.pc = .done ret) :
    Safe asked N b s ↔ ∀ i ∈ s.written, i < querySize := by
  constructor
  · rintro ⟨n, hn⟩
    have hw := hn.writes
    rw [run_done h] at hw
    exact hw
  · intro hw
    exact ⟨0, ⟨ret, h⟩, fun k hk => absurd hk (Nat.not_lt_zero k), hw⟩

theorem not_safeIn_zero (h : ∀ ret, s.pc ≠ .done ret) : ¬ SafeIn asked N b 0 s := by
  rintro ⟨⟨ret, hdone⟩, -, -⟩
  exact h ret hdone

theorem safeIn_succ (n : Nat) (s : State) :
    SafeIn asked N b (n + 1) s ↔
      (step asked s).Within N b ∧ SafeIn asked N b n ((step asked s).run b).1 := by
  constructor
  · rintro ⟨hdone, hin, hw⟩
    exact ⟨hin 0 (Nat.succ_pos n), hdone, fun k hk => hin (k + 1) (Nat.succ_lt_succ hk), hw⟩
  · rintro ⟨hfirst, hdone, hin, hw⟩
    refine ⟨hdone, fun k hk => ?_, hw⟩
    cases k with
    | zero => exact hfirst
    | succ k => exact hin k (Nat.lt_of_succ_lt_succ hk)

theorem safe_step (h : ∀ ret, s.pc ≠ .done ret) :
    Safe asked N b s ↔ (step asked s).Within N b ∧ Safe asked N b ((step asked s).run b).1 := by
  constructor
  · rintro ⟨n, hn⟩
    cases n with
    | zero => exact absurd hn (not_safeIn_zero h)
    | succ n =>
      obtain ⟨hfirst, hrest⟩ := (safeIn_succ n s).mp hn
      exact ⟨hfirst, n, hrest⟩
  · rintro ⟨hfirst, n, hrest⟩
    exact ⟨n + 1, (safeIn_succ n s).mpr ⟨hfirst, hrest⟩⟩

/-! ## The canonical name -/

variable {i k q : Nat}

theorem within_compose : (compose s i k).Within N b ↔
    i < N ∧ (b i ≠ 0 → if b i &&& 0xc0 ≠ 0 then i + 1 < N else i + (b i).toNat < N) := by
  rw [compose, within_readByte_bind, within_ite]
  by_cases hc : b i = 0
  · simp [hc]
  · rw [if_neg hc, within_ite]
    split
    · rw [within_readByte_bind, and_iff_left (within_pure _ _ _)]
      simp [hc]
    · rw [within_bind_of (run_readBytes _ _ _), within_readBytes, and_iff_left (within_pure _ _ _)]
      simp only [hc, ne_eq, not_false_eq_true, forall_const]
      omega

theorem run_compose (i k : Nat) : ((compose s i k).run b).1 =
    if b i = 0 then (s.put k [0]).goto (.done .runNextA)
    else if b i &&& 0xc0 ≠ 0 then
      s.goto (.compose ((b i &&& 0x3f).toNat * 256 + (b (i + 1)).toNat) k)
    else
      { s.put k (b i :: b.slice (i + 1) (b i).toNat) with
        cname := s.cname ++ b i :: b.slice (i + 1) (b i).toNat }.goto
        (.compose (i + (b i).toNat + 1) (k + (b i).toNat + 1)) := by
  rw [compose, run_readByte_bind, run_ite]
  split
  · rfl
  · split
    · rfl
    · rw [run_bind_of (run_readBytes _ _ _)]
      rfl

theorem written_put {bs : List UInt8} (hbs : bs ≠ []) :
    (∀ j ∈ (s.put k bs).written, j < querySize) ↔
      (∀ j ∈ s.written, j < querySize) ∧ k + bs.length ≤ querySize := by
  have hpos := List.length_pos_iff.mpr hbs
  rw [State.put, List.forall_mem_append, List.forall_mem_map]
  apply and_congr_right
  intro _
  constructor
  · intro h
    have hlast := h (bs.length - 1) (List.mem_range.mpr (by omega))
    omega
  · intro h j hj
    have := List.mem_range.mp hj
    omega

/-- A name that is put together safely comes to an end. -/
theorem SafeIn.expands {n : Nat} (h : SafeIn asked N b n (s.goto (.compose i k))) :
    (∃ name, Expands b (composeForm b N) i name ∧ k + name.length < querySize) ∧ ∀ j ∈ s.written, j < querySize := by
  induction n generalizing i k s with
  | zero => exact absurd h (not_safeIn_zero (fun ret hret => by cases hret))
  | succ n ih =>
    obtain ⟨hin, hrest⟩ := (safeIn_succ n _).mp h
    have hstep : step asked (s.goto (.compose i k)) = compose (s.goto (.compose i k)) i k := rfl
    rw [hstep, within_compose] at hin
    rw [hstep, run_compose] at hrest
    obtain ⟨hi, hmore⟩ := hin
    by_cases hc : b i = 0
    · rw [if_pos hc] at hrest
      have hw := (safe_done rfl).mp ⟨n, hrest⟩
      obtain ⟨hold, hk⟩ := (written_put (List.cons_ne_nil _ _)).mp hw
      exact ⟨⟨[], .root hi hc, hk⟩, hold⟩
    · have hmore := hmore hc
      rw [if_neg hc] at hrest
      by_cases hp : b i &&& 0xc0 = 0
      · rw [if_neg (not_not.mpr hp)] at hrest hmore
        obtain ⟨⟨name, hname, hlen⟩, hw⟩ := ih hrest
        have hold := ((written_put (List.cons_ne_nil _ _)).mp hw).1
        refine ⟨⟨_, .label ⟨hmore, hp⟩ hc hname, ?_⟩, hold⟩
        rw [List.length_append, List.length_cons, Store.length_slice]
        omega
      · rw [if_pos hp] at hrest hmore
        obtain ⟨⟨name, hname, hlen⟩, hold⟩ := ih hrest
        exact ⟨⟨name, .pointer ⟨hmore, hp⟩ hc hname, hlen⟩, hold⟩

/-- A name that comes to an end is put together safely, if it fits. -/
theorem Expands.safe {name : List UInt8} (h : Expands b (composeForm b N) i name)
    (hlen : k + name.length < querySize) (hw : ∀ j ∈ s.written, j < querySize) :
    Safe asked N b (s.goto (.compose i k)) := by
  induction h generalizing k s with
  | root hi hc =>
    rw [safe_step (fun ret hret => by cases hret)]
    refine ⟨within_compose.mpr ⟨hi, fun hne => absurd hc hne⟩, ?_⟩
    show Safe asked N b ((compose _ _ _).run b).1
    rw [run_compose, if_pos hc, safe_done rfl]
    exact (written_put (List.cons_ne_nil _ _)).mpr ⟨hw, hlen⟩
  | pointer hinside hc hrest ih =>
    obtain ⟨hi, hp⟩ := hinside
    rw [safe_step (fun ret hret => by cases hret)]
    refine ⟨within_compose.mpr ⟨Nat.lt_of_succ_lt hi, fun _ => by rw [if_pos hp]; exact hi⟩, ?_⟩
    show Safe asked N b ((compose _ _ _).run b).1
    rw [run_compose, if_neg hc, if_pos hp]
    exact ih hlen hw
  | label hinside hc hrest ih =>
    obtain ⟨hi, hp⟩ := hinside
    rw [List.length_append, List.length_cons, Store.length_slice] at hlen
    rw [safe_step (fun ret hret => by cases hret)]
    refine ⟨within_compose.mpr ⟨by omega, fun _ => by rw [if_neg (not_not.mpr hp)]; exact hi⟩, ?_⟩
    show Safe asked N b ((compose _ _ _).run b).1
    rw [run_compose, if_neg hc, if_neg (not_not.mpr hp)]
    refine ih (by omega) ((written_put (List.cons_ne_nil _ _)).mpr ⟨hw, ?_⟩)
    rw [List.length_cons, Store.length_slice]
    omega

theorem safe_compose (i k : Nat) (hw : ∀ j ∈ s.written, j < querySize) :
    Safe asked N b (s.goto (.compose i k)) ↔
      ∃ name, Expands b (composeForm b N) i name ∧ k + name.length < querySize := by
  constructor
  · rintro ⟨n, hn⟩
    exact hn.expands.1
  · rintro ⟨name, hname, hlen⟩
    exact hname.safe hlen hw

/-! ## The record -/

/-- The address in the data of a record. -/
def addressAt (b : Store) (q : Nat) : Option (List UInt8) :=
  if b.Has q [0, 4] then some (b.slice (q + 2) 4) else none

theorem run_addressData (q : Nat) : (addressData q).run b = (addressAt b q, b) := by
  rw [addressData, run_memcmp_if, addressAt]
  split
  · rw [run_bind_of (run_readBytes _ _ _), run_pure]
  · rfl

theorem within_addressData : (addressData q).Within N b ↔ AddressInside N b q := by
  rw [addressData, within_memcmp_if (List.cons_ne_nil _ _), within_bind_of (run_readBytes _ _ _),
    within_readBytes]
  simp [AddressInside]

theorem run_nextAddress (a i : Nat) :
    (nextAddress a i).run b = (if b.Has a (reference i) then addressAt b (a + 10) else none, b) := by
  rw [nextAddress, run_memcmp_if, run_addressData]
  split <;> rfl

theorem within_nextAddress {a : Nat} : (nextAddress a i).Within N b ↔
    a + b.compared a (reference i) ≤ N ∧ (b.Has a (reference i) → AddressInside N b (a + 10)) := by
  have hne : reference i ≠ [] := List.cons_ne_nil _ _
  rw [nextAddress, within_memcmp_if hne, within_addressData]
  simp

theorem within_additional : (additional q).Within N b ↔ NextInside N b q := by
  rw [additional, within_readByte_bind, within_readByte_bind, within_nextAddress, NextInside, nextRecord,
    ← and_assoc]
  apply and_congr_left
  intro _
  omega

theorem run_cnameAddress (q : Nat) :
    (cnameAddress q).run b =
      (if 1 < (b 7).toNat ∧ b.Has (nextRecord b q) (reference (q + 2)) then addressAt b (nextRecord b q + 10)
        else none, b) := by
  rw [cnameAddress, run_readByte_bind, run_ite]
  by_cases hmore : 1 < (b 7).toNat
  · rw [if_pos hmore, additional, run_readByte_bind, run_readByte_bind, run_nextAddress, nextRecord]
    simp only [hmore, true_and]
  · rw [if_neg hmore, if_neg (fun h => hmore h.1), run_pure]

theorem within_cnameAddress : (cnameAddress q).Within N b ↔
    7 < N ∧ (1 < (b 7).toNat → NextInside N b q) := by
  rw [cnameAddress, within_readByte_bind, within_ite, within_additional]
  simp

theorem safe_over (ret : Ret) (hw : s.written = []) : Safe asked N b (s.goto (.done ret)) := by
  refine (safe_done rfl).mpr ?_
  show ∀ j ∈ s.written, j < querySize
  rw [hw]
  exact fun j hj => by cases hj

theorem safe_take {found : Option (List UInt8)} (hw : s.written = [])
    (hfound : ∀ bs, found = some bs → bs.length = 4) (pc : Pc) :
    Safe asked N b (s.take found pc) ↔ (found = none → Safe asked N b (s.goto pc)) := by
  cases found with
  | none => exact ⟨fun h _ => h, fun h => h rfl⟩
  | some bs =>
    refine iff_of_true ((safe_done rfl).mpr ?_) (fun h => by cases h)
    have hlen := hfound bs rfl
    have hne : bs ≠ [] := List.ne_nil_of_length_pos (by omega)
    refine (written_put hne).mpr ⟨?_, ?_⟩
    · rw [hw]
      exact fun j hj => by cases hj
    · rw [hlen]
      decide

theorem addressAt_length {bs : List UInt8} (h : addressAt b q = some bs) : bs.length = 4 := by
  rw [addressAt] at h
  split at h
  · cases h
    exact Store.length_slice ..
  · cases h

theorem safe_recordData {type : UInt8} (hw : s.written = []) :
    (recordData s type q).Meets N b (Safe asked N b) ↔ DataProper N b type q := by
  rw [recordData, meets_ite, meets_ite, meets_pure, meets_bind_of (run_addressData _), meets_pure,
    meets_bind_of (run_cnameAddress _), meets_pure, DataProper, within_addressData, within_cnameAddress,
    safe_take hw (fun bs => addressAt_length), safe_take hw]
  · split
    · exact and_iff_left (fun _ => safe_over _ hw)
    · split
      · have hfew : ∀ j ∈ s.written, j < querySize := by
          rw [hw]
          exact fun j hj => by cases hj
        rw [CnameProper, and_assoc, safe_compose _ _ hfew]
        refine and_congr_right' (and_congr_right' (imp_congr_left ?_))
        rw [Refers, ← and_assoc]
        by_cases hmore : 1 < (b 7).toNat ∧ b.Has (nextRecord b q) (reference (q + 2))
        · rw [if_pos hmore, addressAt]
          simp [hmore]
        · simp [hmore]
      · exact iff_of_true (safe_over _ hw) trivial
  · intro bs hbs
    split at hbs
    · exact addressAt_length hbs
    · cases hbs

theorem safe_record (hw : s.written = []) :
    (record asked s q).Meets N b (Safe asked N b) ↔ RecordProper asked N b q := by
  rw [record, meets_readByte, meets_memcmp_if (List.cons_ne_nil _ _), safe_recordData hw, meets_pure,
    RecordProper]
  simp only [safe_over _ hw, if_true_right]
  exact Iff.rfl

/-! ## The two walks -/

theorem safe_name_step (q : Nat) (hw : s.written = []) : Safe asked N b (s.goto (.name q)) ↔
    q < N ∧ if b q = 0 then RecordProper asked N b (q + 1)
      else if b q &&& 0xc0 = 0xc0 then RecordProper asked N b (q + 2)
      else Safe asked N b (s.goto (.name (q + (b q).toNat + 1))) := by
  rw [safe_step (fun ret hret => by cases hret)]
  show (readByte q >>= _).Meets N b (Safe asked N b) ↔ _
  have hrecord (r : Nat) : (record asked (s.goto (.name q)) r).Meets N b (Safe asked N b) ↔ _ := safe_record hw
  simp only [meets_readByte, meets_ite, meets_pure, hrecord]
  exact Iff.rfl

theorem safe_name (q : Nat) (hw : s.written = []) :
    Safe asked N b (s.goto (.name q)) ↔ AnswerProper asked N b q := by
  constructor
  · -- the walk goes forward, towards the end of the packet
    induction hleft : N - q using Nat.strong_induction_on generalizing q with
    | h left ih =>
      intro h
      obtain ⟨hq, hrest⟩ := (safe_name_step q hw).mp h
      split at hrest
      · next hc => exact ⟨_, .root hq hc, hrest⟩
      · next hc =>
        split at hrest
        · next hp => exact ⟨_, .pointer ⟨hq, hp⟩ hc, hrest⟩
        · next hp =>
          obtain ⟨r, hr, hrecord⟩ := ih _ (by omega) _ rfl hrest
          exact ⟨r, .label ⟨hq, hp⟩ hc hr, hrecord⟩
  · rintro ⟨r, hr, hrecord⟩
    induction hr with
    | root hq hc => exact (safe_name_step _ hw).mpr ⟨hq, by rw [if_pos hc]; exact hrecord⟩
    | pointer h hc =>
      exact (safe_name_step _ hw).mpr ⟨h.1, by rw [if_neg hc, if_pos h.2]; exact hrecord⟩
    | label h hc hrest ih =>
      exact (safe_name_step _ hw).mpr ⟨h.1, by rw [if_neg hc, if_neg h.2]; exact ih hrecord⟩

theorem safe_question_step (q : Nat) : Safe asked N b (s.goto (.question q)) ↔
    q < N ∧ if b q ≠ 0 then Safe asked N b (s.goto (.question (q + (b q).toNat + 1)))
      else Safe asked N b (s.goto (.name (q + 5))) := by
  rw [safe_step (fun ret hret => by cases hret)]
  show (readByte q >>= _).Meets N b (Safe asked N b) ↔ _
  rw [meets_readByte, meets_pure]
  split <;> exact Iff.rfl

theorem safe_question (q : Nat) (hw : s.written = []) : Safe asked N b (s.goto (.question q)) ↔
    ∃ e, Ends b (questionForm N) q e ∧ AnswerProper asked N b (e + 4) := by
  constructor
  · induction hleft : N - q using Nat.strong_induction_on generalizing q with
    | h left ih =>
      intro h
      obtain ⟨hq, hrest⟩ := (safe_question_step q).mp h
      split at hrest
      · next hc =>
        obtain ⟨e, he, hanswer⟩ := ih _ (by omega) _ rfl hrest
        exact ⟨e, .label hq hc he, hanswer⟩
      · next hc => exact ⟨q + 1, .root hq (not_not.mp hc), (safe_name _ hw).mp hrest⟩
  · rintro ⟨e, he, hanswer⟩
    induction he with
    | root hq hc =>
      refine (safe_question_step _).mpr ⟨hq, ?_⟩
      rw [if_neg (not_not.mpr hc)]
      exact (safe_name _ hw).mpr hanswer
    | label hq hc hrest ih =>
      refine (safe_question_step _).mpr ⟨hq, ?_⟩
      rw [if_pos hc]
      exact ih hanswer
    | pointer h hc => exact h.elim

/-! ## The whole packet -/

theorem safe_walkFrom (quest : Nat) (hw : s.written = []) :
    Safe asked N b (s.goto (walkFrom quest)) ↔ WalkProper asked N b quest := by
  rw [walkFrom, WalkProper]
  split
  · exact safe_name _ hw
  · split
    · exact iff_of_true (safe_over _ hw) trivial
    · exact safe_question _ hw

theorem run_headRest : (headRest asked).run b =
    (if b 3 &&& 0x0f = 3 then noAnswer asked
      else if b 3 &&& 0x0f ≠ 0 then .done .nosuchname
      else walkFrom (256 * (b 4).toNat + (b 5).toNat), b) := by
  rw [headRest, run_readByte_bind, run_ite]
  split
  · rfl
  · split <;> rfl

theorem head_cases (asked : Asked) (b : Store) :
    (∃ ret, ret ≠ .runNextA ∧ ((head asked).run b).1 = .done ret) ∨
      ((head asked).run b).1 = walkFrom (256 * (b 4).toNat + (b 5).toNat) := by
  have hnone : ∃ ret, ret ≠ .runNextA ∧ noAnswer asked = .done ret := by
    rw [noAnswer]
    split
    · exact ⟨_, by decide, rfl⟩
    · exact ⟨_, by decide, rfl⟩
  rw [head, run_memcmp_if]
  split
  swap
  · exact Or.inl ⟨.packGarbag, by decide, rfl⟩
  rw [run_readByte_bind, run_ite]
  split
  · exact Or.inl ⟨.packGarbag, by decide, rfl⟩
  rw [run_readByte_bind, run_ite]
  split
  · exact Or.inl hnone
  rw [run_headRest]
  split
  · exact Or.inl hnone
  split
  · exact Or.inl ⟨.nosuchname, by decide, rfl⟩
  · exact Or.inr rfl

theorem within_headRest (h : 8 ≤ N) : (headRest asked).Within N b := by
  rw [headRest, within_readByte_bind, within_ite]
  refine ⟨by omega, ?_⟩
  split
  · exact within_pure _ _ _
  · split
    · exact within_pure _ _ _
    · rw [within_readByte_bind, within_readByte_bind]
      exact ⟨by omega, by omega, within_pure _ _ _⟩

theorem safe_headRest (h : 8 ≤ N) (hw : s.written = []) :
    (headRest asked).Meets N b (fun pc => Safe asked N b (s.goto pc)) ↔
      (b 3 &&& 0x0f = 0 → WalkProper asked N b (256 * (b 4).toNat + (b 5).toNat)) := by
  rw [Meets, and_iff_right (within_headRest h), run_headRest]
  split
  · next herr =>
    refine iff_of_true (safe_over _ hw) (fun hok => ?_)
    cases herr.symm.trans hok
  · split
    · next herr => exact iff_of_true (safe_over _ hw) (fun hok => absurd hok herr)
    · next hok => rw [safe_walkFrom _ hw, forall_prop_of_true (not_not.mp hok)]

theorem safe_head (hw : s.written = []) :
    (head asked).Meets N b (fun pc => Safe asked N b (s.goto pc)) ↔ Proper asked N b := by
  have hover (ret : Ret) : Safe asked N b (s.goto (.done ret)) := safe_over ret hw
  rw [head, meets_memcmp_if (List.cons_ne_nil _ _), Nat.zero_add, meets_readByte, Proper]
  simp only [meets_ite, meets_pure, meets_readByte, noAnswer, hover, if_true_right, if_true_left, not_not]
  refine and_congr_right' (imp_congr_right (fun _ => and_congr_right' (imp_congr_right (fun _ => ?_))))
  exact and_congr_right (fun hN => imp_congr_right (fun _ => safe_headRest hN hw))

theorem safe_start (query : Store) :
    Safe asked N b (start (some (udpPortDns, udpPortDns)) query) ↔ Proper asked N b := by
  have hstart : start (some (udpPortDns, udpPortDns)) query = ⟨.head, query, [], []⟩ := rfl
  rw [hstart, safe_step (fun ret hret => by cases hret), ← safe_head (s := ⟨.head, query, [], []⟩) rfl]
  show (head asked >>= _).Within N b ∧ Safe asked N b ((head asked >>= _).run b).1 ↔ _
  rw [within_bind, run_bind, and_iff_left (within_pure _ _ _), run_pure, Meets]

end Safe

/-- **Safe answers.** For a packet with any ports or none, `await_dns` returns, looks at the `N` bytes of the
    datagram only and writes into the query only, exactly if the packet is proper or not from the port of the
    name server to ours. -/
theorem awaitDns_safe_iff (asked : Asked) (N : Nat) (b : Store) (udp : Option (Nat × Nat)) (query : Store) :
    Safe asked N b (start udp query) ↔ (udp = some (udpPortDns, udpPortDns) → Proper asked N b) := by
  by_cases hudp : udp = some (udpPortDns, udpPortDns)
  · rw [hudp, safe_start]
    exact ⟨fun h _ => h, fun h => h rfl⟩
  · have hstart : start udp query = ⟨.done .packGarbag, query, [], []⟩ := by rw [start, if_neg hudp]
    refine iff_of_true ⟨0, ⟨.packGarbag, ?_⟩, fun k hk => absurd hk (Nat.not_lt_zero k), ?_⟩
      (fun h => absurd h hudp)
    · rw [hstart]
      rfl
    · exact fun i hi => by cases hi

/-- A canonical name that is a pointer to itself, in the answer to a question for an address: the head with
    one answer, no name, type and class, lifetime, two bytes of data at 23. -/
def selfPointer : Store :=
  Store.splice (fun _ => 0) 0
    [0, 1, 0x80, 0, 0, 0, 0, 1, 0, 0, 0, 0, 0, 0, 5, 0, 1, 0, 0, 0, 0, 0, 2, 0xc0, 23]

theorem selfPointer_loops (n : Nat) (s : State) :
    run ⟨1, 1⟩ selfPointer n (s.goto (.compose 23 12)) = s.goto (.compose 23 12) := by
  induction n with
  | zero => rfl
  | succ n ih => exact ih

theorem selfPointer_never_returns :
    ¬ Safe ⟨1, 1⟩ 25 selfPointer (start (some (udpPortDns, udpPortDns)) (fun _ => 0)) := by
  rintro ⟨n, ⟨ret, hdone⟩, -, -⟩
  rcases n with _ | _ | n
  · cases hdone
  · cases hdone
  · have hloop := selfPointer_loops n (start (some (udpPortDns, udpPortDns)) (fun _ => 0))
    have hpc : (run ⟨1, 1⟩ selfPointer (n + 2)
        (start (some (udpPortDns, udpPortDns)) (fun _ => 0))).pc = .compose 23 12 :=
      congrArg State.pc hloop
    cases hpc.symm.trans hdone

/-! ## What an answer depends on -/

theorem SafeIn.run_eq {asked : Asked} {N n : Nat} {b b' : Store} {s : State} (h : SafeIn asked N b n s)
    (hagree : AgreeOn (· < N) b b') : run asked b' n s = run asked b n s := by
  induction n generalizing s with
  | zero => rfl
  | succ n ih =>
    obtain ⟨hfirst, hrest⟩ := (safeIn_succ n s).mp h
    rw [run, run, ← (hfirst.congr hagree).1]
    exact ih hrest

/-- **The datagram alone counts.** On a proper packet `await_dns` returns, and what it returns, finds and leaves
    in the query does not depend on what lies behind the datagram in the buffer. -/
theorem answer_from_datagram (asked : Asked) (N : Nat) (b b' : Store) (hproper : Proper asked N b)
    (hagree : ∀ i < N, b i = b' i) (query : Store) :
    ∃ n ret, (run asked b n (start (some (udpPortDns, udpPortDns)) query)).pc = .done ret ∧
      run asked b' n (start (some (udpPortDns, udpPortDns)) query) =
        run asked b n (start (some (udpPortDns, udpPortDns)) query) := by
  obtain ⟨n, hn⟩ := (safe_start query).mpr hproper
  obtain ⟨ret, hdone⟩ := hn.done
  exact ⟨n, ret, hdone, hn.run_eq hagree⟩

/-- The address 10.0.0.1, and bytes behind it. -/
def addressAnswer (behind : UInt8) : Store :=
  Store.splice (fun _ => behind) 0
    [0, 1, 0x80, 0, 0, 0, 0, 1, 0, 0, 0, 0, 0, 0, 1, 0, 1, 0, 0, 0, 0, 0, 4, 10, 0, 0, 1]

theorem addressAnswer_from_datagram : Proper ⟨1, 1⟩ 27 (addressAnswer 0) ∧
    ∃ n ret, (run ⟨1, 1⟩ (addressAnswer 0) n (start (some (udpPortDns, udpPortDns)) (fun _ => 0))).pc =
        .done ret ∧
      run ⟨1, 1⟩ (addressAnswer 7) n (start (some (udpPortDns, udpPortDns)) (fun _ => 0)) =
        run ⟨1, 1⟩ (addressAnswer 0) n (start (some (udpPortDns, udpPortDns)) (fun _ => 0)) := by
  have hproper : Proper ⟨1, 1⟩ 27 (addressAnswer 0) := by
    refine ⟨by decide, fun _ => ⟨by decide, fun _ => ⟨by decide, fun _ _ => ?_⟩⟩⟩
    have hroot : 12 < 27 := by decide
    exact ⟨13, .root hroot (by decide), by decide, by decide, fun _ => ⟨by decide, fun _ => by decide⟩⟩
  exact ⟨hproper, answer_from_datagram ⟨1, 1⟩ 27 _ _ hproper (by decide) _⟩

end Dns
