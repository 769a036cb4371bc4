import Mathlib.Tactic.Common
import Mathlib.Tactic.Ring

set_option autoImplicit false

/-! # Searches that are resumed

A search finds one result, and is resumed from there for the next one: `next none` is the first result, and
`next (some a)` the one after `a`. `Chain next a l` says that the search, resumed from `a`, finds the results
`l` and then nothing more. A search that is in a chain does not find a result twice (`Chain.nodup`).

`nested` is a search over positions, with a search at every position that has to come to its end first. It
comes to an end exactly if all of them do (`nested_ends_iff`), and finds what they find (`mem_nested`).

`byTwo` is the search for numbers with one property and then, from the beginning, for numbers with another
one, remembering only the last result. `byTwo_ends_iff` says when it comes to an end. -/

namespace Resume

/-! ## Chains -/

section Chain

variable {α : Type} {next : Option α → Option α}

inductive Chain (next : Option α → Option α) : Option α → List α → Prop where
  | done {a : Option α} (h : next a = none) : Chain next a []
  | more {a : Option α} {b : α} {l : List α} (h : next a = some b) (hl : Chain next (some b) l) :
      Chain next a (b :: l)

variable {a : Option α} {l : List α}

theorem Chain.unique {l' : List α} (h : Chain next a l) (h' : Chain next a l') : l = l' := by
  induction h generalizing l' with
  | done hnone =>
    cases h' with
    | done => rfl
    | more hsome => cases hnone.symm.trans hsome
  | more hsome _ ih =>
    cases h' with
    | done hnone => cases hnone.symm.trans hsome
    | more hsome' hl' =>
      cases hsome.symm.trans hsome'
      rw [ih hl']

theorem Chain.of_mem (h : Chain next a l) {b : α} (hb : b ∈ l) :
    ∃ l', Chain next (some b) l' ∧ l'.length < l.length := by
  induction h with
  | done => cases hb
  | more _ hl ih =>
    rcases List.mem_cons.mp hb with rfl | hb
    · exact ⟨_, hl, Nat.lt_succ_self _⟩
    · obtain ⟨l', hl', hlt⟩ := ih hb
      exact ⟨l', hl', Nat.lt_succ_of_lt hlt⟩

theorem Chain.nodup (h : Chain next a l) : l.Nodup := by
  induction h with
  | done => exact List.nodup_nil
  | more _ hl ih =>
    refine List.nodup_cons.mpr ⟨fun hmem => ?_, ih⟩
    -- the chain from a result cannot be shorter than itself
    obtain ⟨l', hl', hlt⟩ := hl.of_mem hmem
    rw [hl.unique hl'] at hlt
    exact Nat.lt_irrefl _ hlt

/-- The search comes to an end. -/
def Ends (next : Option α → Option α) (a : Option α) : Prop := ∃ l, Chain next a l

/-- The search finds `b` before it comes to an end. -/
def Finds (next : Option α → Option α) (a : Option α) (b : α) : Prop := ∃ l, Chain next a l ∧ b ∈ l

theorem Chain.mem_iff (h : Chain next a l) (b : α) : b ∈ l ↔ Finds next a b := by
  constructor
  · exact fun hb => ⟨l, h, hb⟩
  · rintro ⟨l', hl', hb⟩
    rw [h.unique hl']
    exact hb

end Chain

/-! ## Nested searches -/

section Nested

variable {α : Type} (inner : Nat → Option α → Option α)

/-- Search at the position `n`, from `a` on, and then at the `k - 1` positions behind it. -/
def search : Nat → Nat → Option α → Option (Nat × α)
  | 0, _, _ => none
  | k + 1, n, a =>
    match inner n a with
    | some b => some (n, b)
    | none => search k (n + 1) none

/-- The search at the positions below `size`. -/
def nested (size : Nat) : Option (Nat × α) → Option (Nat × α)
  | none => search inner size 0 none
  | some (n, a) => search inner (size - n) n (some a)

variable {inner} {size : Nat} {k n : Nat} {a : Option α}

theorem search_some {b : α} (h : inner n a = some b) : search inner (k + 1) n a = some (n, b) := by
  rw [search, h]

theorem search_none (h : inner n a = none) : search inner (k + 1) n a = search inner k (n + 1) none := by
  rw [search, h]

/-- The results `l` are those at the position `n`, from `a` on, and then those at the `k - 1` positions behind
    it. -/
def Runs (inner : Nat → Option α → Option α) : Nat → Nat → Option α → List (Nat × α) → Prop
  | 0, _, _, l => l = []
  | k + 1, n, a, l => ∃ l₁ l₂, Chain (inner n) a l₁ ∧ l = l₁.map (n, ·) ++ l₂ ∧ Runs inner k (n + 1) none l₂

theorem nested_eq (h : n + (k + 1) = size) (b : α) :
    nested inner size (some (n, b)) = search inner (k + 1) n (some b) := by
  rw [nested, show size - n = k + 1 by omega]

theorem runs_of_chain {s : Option (Nat × α)} {l : List (Nat × α)} (h : Chain (nested inner size) s l) :
    ∀ {n : Nat} {a : Option α}, n + k = size → nested inner size s = search inner k n a →
      Runs inner k n a l := by
  induction k generalizing s l with
  | zero =>
    intro n a _ hs
    cases h with
    | done => rfl
    | more hfound => cases hs.symm.trans hfound
  | succ k ih =>
    intro n a hsize hs
    -- along the chain, as long as there are results at this position
    induction h generalizing a with
    | done hend =>
      cases hinner : inner n a with
      | some b => cases hend.symm.trans (hs.trans (search_some hinner))
      | none => exact ⟨[], [], .done hinner, rfl, ih (.done hend) (by omega) (hs.trans (search_none hinner))⟩
    | @more s c l hfound hl ihl =>
      cases hinner : inner n a with
      | some b =>
        cases hfound.symm.trans (hs.trans (search_some hinner))
        obtain ⟨l₁, l₂, hl₁, rfl, hrest⟩ := ihl (nested_eq hsize b)
        exact ⟨b :: l₁, l₂, .more hinner hl₁, rfl, hrest⟩
      | none =>
        exact ⟨[], c :: l, .done hinner, rfl, ih (.more hfound hl) (by omega) (hs.trans (search_none hinner))⟩

theorem chain_of_runs : ∀ {n : Nat} {a : Option α} {s : Option (Nat × α)} {l : List (Nat × α)},
    n + k = size → nested inner size s = search inner k n a → Runs inner k n a l →
      Chain (nested inner size) s l := by
  induction k with
  | zero =>
    rintro n a s _ _ hs rfl
    exact .done hs
  | succ k ih =>
    rintro n a s _ hsize hs ⟨l₁, l₂, hl₁, rfl, hrest⟩
    induction hl₁ generalizing s with
    | done hnone => exact ih (by omega) (hs.trans (search_none hnone)) hrest
    | more hsome _ ihl => exact .more (hs.trans (search_some hsome)) (ihl (nested_eq hsize _))

theorem exists_runs_iff : ∀ {n : Nat}, (∃ l, Runs inner k n none l) ↔
    ∀ m, n ≤ m → m < n + k → Ends (inner m) none := by
  induction k with
  | zero => exact fun {n} => iff_of_true ⟨[], rfl⟩ (fun m hn hm => by omega)
  | succ k ih =>
    intro n
    constructor
    · rintro ⟨_, l₁, l₂, hl₁, -, hrest⟩ m hn hm
      rcases Nat.eq_or_lt_of_le hn with rfl | hn
      · exact ⟨l₁, hl₁⟩
      · exact ih.mp ⟨l₂, hrest⟩ m hn (by omega)
    · intro h
      obtain ⟨l₁, hl₁⟩ := h n (Nat.le_refl n) (by omega)
      obtain ⟨l₂, hrest⟩ := (ih (n := n + 1)).mpr (fun m hn hm => h m (by omega) (by omega))
      exact ⟨_, l₁, l₂, hl₁, rfl, hrest⟩

theorem Runs.mem_iff {m : Nat} {b : α} : ∀ {n : Nat} {l : List (Nat × α)}, Runs inner k n none l →
    ((m, b) ∈ l ↔ n ≤ m ∧ m < n + k ∧ Finds (inner m) none b) := by
  induction k with
  | zero =>
    rintro n _ rfl
    exact iff_of_false List.not_mem_nil (fun h => by omega)
  | succ k ih =>
    rintro n _ ⟨l₁, l₂, hl₁, rfl, hrest⟩
    rw [List.mem_append, ih hrest, List.mem_map]
    constructor
    · rintro (⟨b', hb', heq⟩ | ⟨hn, hm, hfinds⟩)
      · obtain ⟨rfl, rfl⟩ := Prod.mk.inj heq
        exact ⟨Nat.le_refl n, by omega, l₁, hl₁, hb'⟩
      · exact ⟨by omega, by omega, hfinds⟩
    · rintro ⟨hn, hm, hfinds⟩
      rcases Nat.eq_or_lt_of_le hn with rfl | hn
      · exact .inl ⟨b, (hl₁.mem_iff b).mpr hfinds, rfl⟩
      · exact .inr ⟨hn, by omega, hfinds⟩

theorem chain_iff_runs (l : List (Nat × α)) : Chain (nested inner size) none l ↔ Runs inner size 0 none l :=
  ⟨fun h => runs_of_chain h (Nat.zero_add size) rfl, chain_of_runs (Nat.zero_add size) rfl⟩

/-- **A nested search comes to an end** exactly if the searches at all positions do. -/
theorem nested_ends_iff : Ends (nested inner size) none ↔ ∀ n < size, Ends (inner n) none := by
  simp only [Ends, chain_iff_runs, exists_runs_iff, Nat.zero_le, Nat.zero_add, true_imp_iff]

theorem mem_nested {l : List (Nat × α)} (h : Chain (nested inner size) none l) (n : Nat) (b : α) :
    (n, b) ∈ l ↔ n < size ∧ Finds (inner n) none b := by
  rw [((chain_iff_runs l).mp h).mem_iff, Nat.zero_add]
  exact and_iff_right (Nat.zero_le n)

end Nested

/-! ## Two properties -/

section ByTwo

variable (P Q : Nat → Prop) [DecidablePred P] [DecidablePred Q]

/-- The first of the `k` numbers from `n` on with the property. -/
def first : Nat → Nat → Option Nat
  | 0, _ => none
  | k + 1, n => if P n then some n else first k (n + 1)

/-- The next number below `size` with the property `P`, or the first other one with the property `Q`. -/
def byTwo (size : Nat) : Option Nat → Option Nat
  | none => (first P size 0).or (first Q size 0)
  | some n => (first P (size - (n + 1)) (n + 1)).or (first (fun m => m ≠ n ∧ Q m) size 0)

end ByTwo

section First

variable {P : Nat → Prop} [DecidablePred P]

theorem first_eq_none {k n : Nat} : first P k n = none ↔ ∀ m, n ≤ m → m < n + k → ¬ P m := by
  induction k generalizing n with
  | zero => exact iff_of_true rfl (fun m hn hm => by omega)
  | succ k ih =>
    rw [first]
    split
    · next hp => exact iff_of_false (Option.some_ne_none n) (fun h => h n (Nat.le_refl n) (by omega) hp)
    · next hp =>
      rw [ih]
      constructor
      · intro h m hn hm
        rcases Nat.eq_or_lt_of_le hn with rfl | hn
        · exact hp
        · exact h m hn (by omega)
      · exact fun h m hn hm => h m (by omega) (by omega)

theorem first_eq_some {k n m : Nat} (h : first P k n = some m) :
    n ≤ m ∧ m < n + k ∧ P m ∧ ∀ i, n ≤ i → i < m → ¬ P i := by
  induction k generalizing n with
  | zero => cases h
  | succ k ih =>
    rw [first] at h
    split at h
    · next hp =>
      obtain rfl := Option.some.inj h
      exact ⟨Nat.le_refl n, by omega, hp, fun i hn hi => by omega⟩
    · next hp =>
      obtain ⟨hle, hlt, hpm, hbefore⟩ := ih h
      refine ⟨by omega, by omega, hpm, fun i hn hi => ?_⟩
      rcases Nat.eq_or_lt_of_le hn with rfl | hn
      · exact hp
      · exact hbefore i hn hi

theorem first_congr {Q : Nat → Prop} [DecidablePred Q] (h : ∀ m, P m ↔ Q m) :
    ∀ k n, first P k n = first Q k n := by
  intro k
  induction k with
  | zero => exact fun _ => rfl
  | succ k ih =>
    intro n
    simp only [first, h n, ih (n + 1)]

end First

section ByTwo

variable {P Q : Nat → Prop} [DecidablePred P] [DecidablePred Q] {size : Nat}

/-- Where the search for `P` goes on. -/
def resumeAt : Option Nat → Nat
  | none => 0
  | some n => n + 1

theorem byTwo_eq (a : Option Nat) :
    byTwo P Q size a = (first P (size - resumeAt a) (resumeAt a)).or
      (first (fun m => a ≠ some m ∧ Q m) size 0) := by
  cases a with
  | none =>
    have hq : ∀ m, Q m ↔ none ≠ some m ∧ Q m := fun m =>
      ⟨fun h => ⟨(Option.some_ne_none m).symm, h⟩, And.right⟩
    rw [byTwo, first_congr hq]
    rfl
  | some n =>
    have hq : ∀ m, m ≠ n ∧ Q m ↔ some n ≠ some m ∧ Q m := fun m =>
      and_congr_left fun _ => not_congr ⟨fun h => congrArg some h.symm, fun h => (Option.some.inj h).symm⟩
    rw [byTwo, first_congr hq]
    rfl

variable {a : Option Nat} {l : List Nat}

theorem byTwo_none (h : byTwo P Q size a = none) :
    (∀ m, resumeAt a ≤ m → m < size → ¬ P m) ∧ ∀ m < size, Q m → a = some m := by
  rw [byTwo_eq] at h
  obtain ⟨hp, hq⟩ := Option.or_eq_none_iff.mp h
  refine ⟨fun m hle hm => first_eq_none.mp hp m hle (by omega), fun m hm hqm => ?_⟩
  by_contra hne
  exact first_eq_none.mp hq m (Nat.zero_le m) (by omega) ⟨hne, hqm⟩

/-- The next result has one of the properties. If it has been found by the second one, there is nothing more
    to be found by the first one. -/
theorem byTwo_some {b : Nat} (h : byTwo P Q size a = some b) :
    b < size ∧ (P b ∧ resumeAt a ≤ b ∧ (∀ m, resumeAt a ≤ m → m < b → ¬ P m) ∨
      Q b ∧ ∀ m, resumeAt a ≤ m → m < size → ¬ P m) := by
  rw [byTwo_eq] at h
  rcases Option.or_eq_some_iff.mp h with hp | ⟨hp, hq⟩
  · obtain ⟨hle, hlt, hpb, hbefore⟩ := first_eq_some hp
    exact ⟨by omega, .inl ⟨hpb, hle, hbefore⟩⟩
  · obtain ⟨-, hlt, hqb, -⟩ := first_eq_some hq
    exact ⟨by omega, .inr ⟨hqb.2, fun m hle hm => first_eq_none.mp hp m hle (by omega)⟩⟩

/-- At most one number has the second property, and no number above it has the first one. -/
def Orderly (P Q : Nat → Prop) (size : Nat) : Prop :=
  ∀ q < size, Q q → (∀ q' < size, Q q' → q' = q) ∧ ∀ p < size, P p → p ≤ q

/-- After a number with the second property there is nothing more. -/
theorem byTwo_of_orderly (h : Orderly P Q size) {q : Nat} (hlt : q < size) (hq : Q q) :
    byTwo P Q size (some q) = none := by
  obtain ⟨honly, hlast⟩ := h q hlt hq
  refine Option.or_eq_none_iff.mpr ⟨first_eq_none.mpr ?_, first_eq_none.mpr ?_⟩
  · intro m hle hm hp
    have := hlast m (by omega) hp
    omega
  · intro m _ hm hboth
    exact hboth.1 (honly m (by omega) hboth.2)

theorem ends_of_orderly (h : Orderly P Q size) (a : Option Nat) : Ends (byTwo P Q size) a := by
  -- one more number with the first property, or one with the second property and the end
  induction hleft : size - resumeAt a using Nat.strong_induction_on generalizing a with
  | h left ih =>
    cases hb : byTwo P Q size a with
    | none => exact ⟨[], .done hb⟩
    | some b =>
      obtain ⟨hlt, ⟨-, hle, -⟩ | ⟨hq, -⟩⟩ := byTwo_some hb
      · obtain ⟨l, hl⟩ := ih (size - (b + 1)) (by omega) (some b) rfl
        exact ⟨b :: l, .more hb hl⟩
      · exact ⟨[b], .more hb (.done (byTwo_of_orderly h hlt hq))⟩

theorem orderly_of_chain (h : Chain (byTwo P Q size) a l) :
    ∀ q < size, Q q → (∀ q' < size, Q q' → q' = q) ∧
      ∀ p < size, (∀ y, a = some y → y ≤ p) → P p → p ≤ q := by
  induction h with
  | @done a hend =>
    intro q hlt hq
    obtain ⟨hp, hall⟩ := byTwo_none hend
    have ha := hall q hlt hq
    refine ⟨fun q' hlt' hq' => ?_, fun p hsize hle hpp => ?_⟩
    · exact Option.some.inj ((hall q' hlt' hq').symm.trans ha)
    · by_contra hgt
      refine hp p ?_ hsize hpp
      rw [ha]
      exact Nat.not_le.mp hgt
  | @more a b l hb _ ih =>
    intro q hlt hq
    obtain ⟨honly, hlast⟩ := ih q hlt hq
    have hlast : ∀ p < size, b ≤ p → P p → p ≤ q := fun p hsize hle =>
      hlast p hsize (fun y hy => Option.some.inj hy ▸ hle)
    refine ⟨honly, fun p hsize hle hpp => ?_⟩
    obtain ⟨hbsize, ⟨hpb, hge, hbefore⟩ | ⟨hqb, hnone⟩⟩ := byTwo_some hb
    · rcases Nat.lt_or_ge p b with hpb' | hpb'
      · exact hpb'.le.trans (hlast b hbsize (Nat.le_refl b) hpb)
      · exact hlast p hsize hpb' hpp
    · obtain rfl : b = q := honly b hbsize hqb
      rcases Nat.lt_or_ge p b with hpb' | hpb'
      · exact hpb'.le
      · exact hlast p hsize hpb' hpp

/-- **The search for two properties comes to an end** exactly if at most one number has the second one, and
    no number above it has the first one. -/
theorem byTwo_ends_iff : Ends (byTwo P Q size) none ↔ Orderly P Q size := by
  constructor
  · rintro ⟨l, hl⟩ q hlt hq
    obtain ⟨honly, hlast⟩ := orderly_of_chain hl q hlt hq
    exact ⟨honly, fun p hsize hp => hlast p hsize (fun y hy => by cases hy) hp⟩
  · exact fun h => ends_of_orderly h none

/-- All numbers with one of the properties are found. -/
theorem mem_of_chain (h : Chain (byTwo P Q size) a l) {m : Nat}
    (hm : m < size) : (P m → resumeAt a ≤ m → m ∈ l) ∧ (Q m → m ∈ l ∨ a = some m) := by
  induction h with
  | done hend =>
    obtain ⟨hp, hq⟩ := byTwo_none hend
    exact ⟨fun hpm hle => absurd hpm (hp m hle hm), fun hqm => .inr (hq m hm hqm)⟩
  | @more a b l hb _ ih =>
    refine ⟨fun hpm hle => ?_, fun hqm => ?_⟩
    · obtain ⟨-, ⟨-, -, hbefore⟩ | ⟨-, hnone⟩⟩ := byTwo_some hb
      · rcases Nat.lt_trichotomy m b with hlt | rfl | hgt
        · exact absurd hpm (hbefore m hle hlt)
        · exact List.mem_cons_self
        · exact List.mem_cons_of_mem b (ih.1 hpm hgt)
      · exact absurd hpm (hnone m hle hm)
    · rcases ih.2 hqm with hmem | heq
      · exact .inl (List.mem_cons_of_mem b hmem)
      · rw [Option.some.inj heq]
        exact .inl List.mem_cons_self

theorem of_mem_chain (h : Chain (byTwo P Q size) a l) {m : Nat} (hm : m ∈ l) : m < size ∧ (P m ∨ Q m) := by
  induction h with
  | done => cases hm
  | more hb _ ih =>
    rcases List.mem_cons.mp hm with rfl | hm
    · obtain ⟨hlt, ⟨hp, -⟩ | ⟨hq, -⟩⟩ := byTwo_some hb
      · exact ⟨hlt, .inl hp⟩
      · exact ⟨hlt, .inr hq⟩
    · exact ih hm

theorem byTwo_finds (h : Orderly P Q size) (m : Nat) :
    Finds (byTwo P Q size) none m ↔ m < size ∧ (P m ∨ Q m) := by
  obtain ⟨l, hl⟩ := byTwo_ends_iff.mpr h
  rw [← hl.mem_iff]
  constructor
  · exact of_mem_chain hl
  · rintro ⟨hm, hp | hq⟩
    · exact (mem_of_chain hl hm).1 hp (Nat.zero_le m)
    · exact ((mem_of_chain hl hm).2 hq).resolve_right (Option.some_ne_none m).symm

end ByTwo

end Resume
