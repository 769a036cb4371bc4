import Etherboot.Lib.Memory
import Etherboot.Lib.Transition

set_option autoImplicit false

/-! # Base memory

Base memory (`pcbios/basemem.c`) is taken from the BIOS by lowering its counter of free kilobytes,
the 16-bit word at address 0x413. A block can be freed in any order: every kilobyte of it is marked
by a magic word and the size that remains, and the counter is raised later, when a walk from the
lowest kilobyte up meets the marks.

The walk is right as long as memory and counter do not overlap (`baseMemory_sound`). But the counter
lies in the second kilobyte of the memory it counts, and nothing keeps an allocation from reaching
down there: its block is cleared, and the counter with it. -/

namespace Basemem

open Memory

/-- The counter `*fbms`. -/
def fbms (m : Store) : Nat := le16 m 0x413

def setFbms (m : Store) (v : Nat) : Store := m.splice 0x413 (le16Bytes v)

def baseMemoryMax : Nat := 640

/-- `FREE_BLOCK_MAGIC`, the characters `!FRE`. -/
def freeBlockMagic : Nat := 0x21 + 0x46 <<< 8 + 0x52 <<< 16 + 0x45 <<< 24

def freeBaseMemory (m : Store) : Nat := fbms m <<< 10

/-- `free_unused_base_memory`, or `none` if its loop has not come to an end after `fuel` rounds. -/
def freeUnusedBaseMemory : Nat → Store → Option Store
  | 0, _ => none
  | fuel + 1, m =>
    let freeBlock := freeBaseMemory m
    if fbms m = baseMemoryMax ∨ le32 m freeBlock ≠ freeBlockMagic then some m
    else
      -- return memory to the BIOS, and zero out the freed block
      let m := setFbms m ((fbms m + le16 m (freeBlock + 4)) % 2 ^ 16)
      freeUnusedBaseMemory fuel (memset m freeBlock 0 (le16 m (freeBlock + 4) <<< 10))

/-- More rounds than there are kilobytes. -/
def rounds : Nat := baseMemoryMax + 1

/-- `_allot_base_memory`: the block's address, `none` for a null pointer, and the memory behind. -/
def allotBaseMemory (m : Store) (size : Nat) : Option (Option Nat × Store) :=
  let sizeKb := (((size + 1023) % 2 ^ 32) >>> 10) % 2 ^ 16
  match freeUnusedBaseMemory rounds m with
  | none => none
  | some m =>
    if sizeKb > fbms m then some (none, m)
    else
      let m := setFbms m (fbms m - sizeKb)
      let ptr := freeBaseMemory m
      some (some ptr, memset m ptr 0 (sizeKb <<< 10))

/-- The loop that marks a block, kilobyte by kilobyte. -/
def markFree (m : Store) (freeBlock : Nat) : Nat → Store
  | 0 => m
  | n + 1 =>
    markFree (m.splice freeBlock (le32Bytes freeBlockMagic ++ le16Bytes (n + 1))) (freeBlock + 1024) n

/-- `_forget_base_memory`. -/
def forgetBaseMemory (m : Store) (ptr : Option Nat) (size : Nat) : Option Store :=
  match ptr with
  | none => some m
  | some ptr =>
    let remainder := ptr &&& 1023
    let sizeKb := (((size + remainder + 1023) % 2 ^ 32) >>> 10) % 2 ^ 16
    if size = 0 then some m
    else freeUnusedBaseMemory rounds (markFree m (ptr - remainder) sizeKb)

/-! ## Sessions -/

structure Block where
  ptr : Nat
  size : Nat
  deriving DecidableEq, Repr

namespace Block

/-- The number of kilobytes of the block, and the first of them. -/
def sizeKb (b : Block) : Nat := (b.size + 1023) / 1024

def kb (b : Block) : Nat := b.ptr / 1024

def fin (b : Block) : Nat := b.ptr + b.sizeKb * 1024

end Block

/-- The memory, the counter's initial value, the live blocks, newest first, and whether a call has not
    returned. -/
structure Session where
  mem : Store
  initial : Nat
  live : List Block
  hung : Bool

/-- `free i` frees the `i`-th of the live blocks with its own size. -/
inductive Event where
  | allot (size : Nat)
  | free (i : Nat)
  | write (a : Nat) (v : UInt8)

namespace Session

variable (s : Session)

/-- The bytes that programs write to: their blocks, and what is not handed out. -/
def writable (a : Nat) : Bool :=
  a != 0x413 && a != 0x414 &&
    (decide (a < freeBaseMemory s.mem) || decide (s.initial * 1024 ≤ a) ||
      s.live.any (fun b => b.ptr ≤ a && a < b.fin))

def step : Event → Session
  | .allot size =>
    match allotBaseMemory s.mem size with
    | none => { s with hung := true }
    | some (none, m) => { s with mem := m }
    | some (some ptr, m) => { s with mem := m, live := ⟨ptr, size⟩ :: s.live }
  | .free i =>
    match s.live[i]? with
    | none => s
    | some b =>
      match forgetBaseMemory s.mem (some b.ptr) b.size with
      | none => { s with hung := true }
      | some m => { s with mem := m, live := s.live.eraseIdx i }
  | .write a v => if s.writable a then { s with mem := s.mem.set a v } else s

def start (m : Store) : Session := ⟨m, fbms m, [], false⟩

/-- What must hold of a state: the calls have returned; the live blocks are whole kilobytes between
    the counter and its initial value, apart from each other; the lowest starts at the counter; and
    without live blocks the counter is back at its initial value. -/
structure Sound : Prop where
  running : s.hung = false
  aligned : ∀ b ∈ s.live, b.ptr % 1024 = 0
  inside : ∀ b ∈ s.live, fbms s.mem * 1024 ≤ b.ptr ∧ b.fin ≤ s.initial * 1024
  apart : s.live.Pairwise (fun b c => b.fin ≤ c.ptr ∨ c.fin ≤ b.ptr)
  lowest : s.live ≠ [] → ∃ b ∈ s.live, b.ptr = fbms s.mem * 1024
  restored : s.live = [] → fbms s.mem = s.initial

/-- A step leaves a sound state, and an allocation fails only if there are too few kilobytes. -/
structure StepOk (e : Event) : Prop where
  sound : Sound (s.step e)
  fails : ∀ size, e = .allot size → (∃ m, allotBaseMemory s.mem size = some (none, m)) →
    fbms s.mem < (size + 1023) / 1024

/-- Nothing the walk could take for a freed block. -/
@[mk_iff] structure NoMagic : Prop where
  live : ∀ b ∈ s.live, le32 s.mem b.ptr ≠ freeBlockMagic
  initial : le32 s.mem (s.initial * 1024) ≠ freeBlockMagic

instance (s : Session) : Decidable (NoMagic s) := decidable_of_iff' _ (noMagic_iff ..)

/-- What the calls assume. -/
def Legal : Event → Prop
  | .allot size => (1 ≤ size ∧ size ≤ 640 * 1024) ∧ NoMagic s
  | .free _ => NoMagic s
  | .write _ _ => True

instance (s : Session) (e : Event) : Decidable (Legal s e) :=
  match e with
  | .allot _ => inferInstanceAs (Decidable (_ ∧ _))
  | .free _ => inferInstanceAs (Decidable (NoMagic s))
  | .write _ _ => isTrue trivial

/-- An allocation fails or leaves two kilobytes. -/
def Clear : Event → Prop
  | .allot size => fbms s.mem < (size + 1023) / 1024 ∨ (size + 1023) / 1024 + 2 ≤ fbms s.mem
  | _ => True

instance (s : Session) (e : Event) : Decidable (Clear s e) :=
  match e with
  | .allot _ => inferInstanceAs (Decidable (_ ∨ _))
  | .free _ => isTrue trivial
  | .write _ _ => isTrue trivial

end Session

/-! ## Marks -/

/-- The kilobytes from `k` up to `g` are marked as free, none of them beyond `g`. -/
def Marked (m : Store) (k g : Nat) : Prop :=
  ∀ j, k ≤ j → j < g → le32 m (j * 1024) = freeBlockMagic ∧ 0 < le16 m (j * 1024 + 4) ∧
    j + le16 m (j * 1024 + 4) ≤ g

variable {m : Store} {k n a : Nat}

theorem Marked.congr {m' : Store} {g : Nat} (h : Marked m k g)
    (hm : ∀ a, k * 1024 ≤ a → a < g * 1024 → m' a = m a) : Marked m' k g := by
  intro j hk hg
  have h32 : le32 m' (j * 1024) = le32 m (j * 1024) :=
    le32_congr (fun i hi => hm _ (by omega) (by omega))
  have h16 : le16 m' (j * 1024 + 4) = le16 m (j * 1024 + 4) :=
    le16_congr (fun i hi => hm _ (by omega) (by omega))
  rw [h32, h16]
  exact h j hk hg

theorem Marked.append {g g' : Nat} (h : Marked m k g) (h' : Marked m g g')
    (hle : g ≤ g') : Marked m k g' := by
  intro j hk hg
  by_cases hj : j < g
  · obtain ⟨h1, h2, h3⟩ := h j hk hj
    exact ⟨h1, h2, by omega⟩
  · exact h' j (by omega) hg

theorem markFree_outside (m : Store) {p : Nat} (h : a < p ∨ p + n * 1024 ≤ a) : markFree m p n a = m a := by
  induction n generalizing m p with
  | zero => rfl
  | succ n ih =>
    rw [markFree, ih _ (by omega)]
    rcases h with h | h
    · exact m.splice_of_lt _ h
    · exact m.splice_of_ge _ (by simp; omega)

theorem freeBlockMagic_lt : freeBlockMagic < 2 ^ 32 := by decide

theorem markFree_marked (m : Store) (hn : n < 2 ^ 16) : Marked (markFree m (k * 1024) n) k (k + n) := by
  induction n generalizing m k with
  | zero => intro j hk hg; omega
  | succ n ih =>
    have hnext : k * 1024 + 1024 = (k + 1) * 1024 := by omega
    rw [markFree, hnext]
    generalize hm' : m.splice (k * 1024) _ = m'
    have hhas : m'.Has (k * 1024) (le32Bytes freeBlockMagic ++ le16Bytes (n + 1)) := by
      rw [← hm']
      exact Store.slice_splice_self ..
    obtain ⟨h32, h16⟩ := Store.has_append.mp hhas
    intro j hk hg
    by_cases hj : j = k
    · subst hj
      -- the first mark is not touched by the later ones
      have hkeep (a : Nat) (ha : a < (j + 1) * 1024) : markFree m' ((j + 1) * 1024) n a = m' a :=
        markFree_outside m' (Or.inl ha)
      have hmag : le32 (markFree m' ((j + 1) * 1024) n) (j * 1024) = freeBlockMagic :=
        (le32_congr (fun i hi => hkeep _ (by omega))).trans (le32_of_has freeBlockMagic_lt h32)
      have hsz : le16 (markFree m' ((j + 1) * 1024) n) (j * 1024 + 4) = n + 1 :=
        (le16_congr (fun i hi => hkeep _ (by omega))).trans (le16_of_has hn h16)
      rw [hmag, hsz]
      exact ⟨rfl, by omega, by omega⟩
    · have := ih m' (k := k + 1) (by omega) j (by omega) (by omega)
      rw [show k + 1 + n = k + (n + 1) by omega] at this
      exact this

/-! ## The walk -/

theorem fbms_setFbms (m : Store) {v : Nat} (hv : v < 2 ^ 16) : fbms (setFbms m v) = v :=
  le16_of_has hv (Store.slice_splice_self ..)

theorem setFbms_above (m : Store) (v : Nat) (ha : 2048 ≤ a) : setFbms m v a = m a :=
  m.splice_of_ge _ (by rw [length_le16Bytes]; omega)

theorem fbms_congr {m' : Store} (h : ∀ a < 2048, m' a = m a) : fbms m' = fbms m :=
  le16_congr (fun k hk => h _ (by omega))

theorem freeBaseMemory_eq (m : Store) : freeBaseMemory m = fbms m * 1024 := Nat.shiftLeft_eq _ 10

theorem clear_above (hfit : k + n ≤ 640) (ha : a < 2 ^ 32)
    (h : a < k * 1024 ∨ k * 1024 + n * 1024 ≤ a) : memset m (k * 1024) 0 (n * 1024) a = m a :=
  memset_outside m 0 (by omega) ha h

/-- **The walk.** From the counter over marked kilobytes it comes to the first one that is not, and
    changes nothing from there on. -/
theorem freeUnused_spec {next : Nat} (hnext : next ≤ 640) (d : Nat) :
    ∀ (m : Store) (fuel : Nat), fbms m + d = next → (d ≠ 0 → 2 ≤ fbms m) → Marked m (fbms m) next →
      le32 m (next * 1024) ≠ freeBlockMagic → d < fuel →
      ∃ m', freeUnusedBaseMemory fuel m = some m' ∧ fbms m' = next ∧
        ∀ a, next * 1024 ≤ a → a < 2 ^ 32 → m' a = m a := by
  induction d using Nat.strong_induction_on with
  | _ d ih =>
    intro m fuel hd hlow hmark hmagic hfuel
    obtain ⟨fuel, rfl⟩ : ∃ f, fuel = f + 1 := ⟨fuel - 1, by omega⟩
    simp only [freeUnusedBaseMemory, freeBaseMemory_eq, Nat.shiftLeft_eq _ 10]
    by_cases hzero : d = 0
    · have hk : fbms m = next := by omega
      rw [if_pos (Or.inr (by rw [hk]; exact hmagic))]
      exact ⟨m, rfl, hk, fun _ _ _ => rfl⟩
    · obtain ⟨hmag, hpos, hend⟩ := hmark (fbms m) (Nat.le_refl _) (by omega)
      rw [if_neg (by rw [hmag]; simp only [baseMemoryMax]; omega)]
      generalize hk : fbms m = k at *
      generalize hn : le16 m (k * 1024 + 4) = n at *
      rw [Nat.mod_eq_of_lt (show k + n < 2 ^ 16 by omega)]
      have hsize : le16 (setFbms m (k + n)) (k * 1024 + 4) = n :=
        (le16_congr (fun i hi => setFbms_above m _ (by omega))).trans hn
      rw [hsize]
      generalize hm' : memset (setFbms m (k + n)) (k * 1024) 0 (n * 1024) = m'
      -- the block is cleared and the counter raised; the rest is as before
      have hcnt : fbms m' = k + n := by
        rw [← hm', ← fbms_setFbms m (show k + n < 2 ^ 16 by omega)]
        refine fbms_congr (fun a ha => ?_)
        rw [fbms_setFbms m (show k + n < 2 ^ 16 by omega)]
        exact clear_above (by omega) (by omega) (Or.inl (by omega))
      have hsame : ∀ a, k * 1024 + n * 1024 ≤ a → a < 2 ^ 32 → m' a = m a := by
        intro a ha hlt
        rw [← hm', clear_above (by omega) hlt (Or.inr ha)]
        exact setFbms_above m _ (by omega)
      have hmark' : Marked m' (k + n) next := by
        have hrest : Marked m (k + n) next := fun j hj hg => hmark j (by omega) hg
        exact hrest.congr (fun a h1 h2 => hsame a (by rwa [Nat.add_mul] at h1) (by omega))
      have hmagic' : le32 m' (next * 1024) ≠ freeBlockMagic := by
        rwa [le32_congr (fun i hi => hsame (next * 1024 + i) (by omega) (by omega))]
      obtain ⟨m'', hrun, hfb, hrest⟩ := ih (d - n) (by omega) m' fuel (by omega) (by omega)
        (by rwa [hcnt]) hmagic' (by omega)
      have hbelow : k * 1024 + n * 1024 ≤ next * 1024 := by omega
      refine ⟨m'', hrun, hfb, fun a ha hlt => ?_⟩
      rw [hrest a ha hlt, hsame a (Nat.le_trans hbelow ha) hlt]

/-! ## Live blocks and the gaps between them -/

/-- The live blocks lie above `k` in their order, and the gaps between them are marked, up to `n`. -/
def Gaps (m : Store) (n : Nat) : Nat → List Block → Prop
  | k, [] => k ≤ n ∧ Marked m k n
  | k, b :: bs =>
    b.ptr % 1024 = 0 ∧ 0 < b.sizeKb ∧ k ≤ b.kb ∧ Marked m k b.kb ∧ Gaps m n (b.kb + b.sizeKb) bs

/-- The first kilobyte behind the first gap. -/
def nextKb (n : Nat) : List Block → Nat
  | [] => n
  | b :: _ => b.kb

namespace Gaps

variable {m m' : Store} {n k : Nat} {bs : List Block}

section

variable (h : Gaps m n k bs)

include h

theorem le_nextKb : k ≤ nextKb n bs := by
  cases bs with
  | nil => exact h.1
  | cons b bs => exact h.2.2.1

theorem le_top : k ≤ n := by
  induction bs generalizing k with
  | nil => exact h.1
  | cons b bs ih =>
    obtain ⟨-, -, hk, -, hrest⟩ := h
    have := ih hrest
    omega

theorem inside : ∀ b ∈ bs, b.ptr = b.kb * 1024 ∧ k ≤ b.kb ∧ b.kb + b.sizeKb ≤ n := by
  induction bs generalizing k with
  | nil => intro b hb; cases hb
  | cons c bs ih =>
    obtain ⟨hal, -, hk, -, hrest⟩ := h
    intro b hb
    rcases List.mem_cons.mp hb with rfl | hb
    · refine ⟨?_, hk, hrest.le_top⟩
      unfold Block.kb; omega
    · obtain ⟨h1, h2, h3⟩ := ih hrest b hb
      exact ⟨h1, by omega, h3⟩

theorem sizeKb_pos : ∀ b ∈ bs, 0 < b.sizeKb := by
  induction bs generalizing k with
  | nil => intro b hb; cases hb
  | cons c bs ih =>
    obtain ⟨-, hsz, -, -, hrest⟩ := h
    exact List.forall_mem_cons.mpr ⟨hsz, ih hrest⟩

theorem apart : bs.Pairwise (fun b c => b.kb + b.sizeKb ≤ c.kb) := by
  induction bs generalizing k with
  | nil => exact List.Pairwise.nil
  | cons b bs ih =>
    obtain ⟨-, -, -, -, hrest⟩ := h
    exact List.pairwise_cons.mpr ⟨fun c hc => (hrest.inside c hc).2.1, ih hrest⟩

end

theorem fin_eq {b : Block} (h : b.ptr = b.kb * 1024) : b.fin = (b.kb + b.sizeKb) * 1024 := by
  rw [Block.fin, h, Nat.add_mul]

theorem congr (h : Gaps m n k bs)
    (hm : ∀ a, k * 1024 ≤ a → a < n * 1024 → (∀ b ∈ bs, a < b.ptr ∨ b.fin ≤ a) → m' a = m a) :
    Gaps m' n k bs := by
  induction bs generalizing k with
  | nil => exact ⟨h.1, h.2.congr (fun a h1 h2 => hm a h1 h2 (by simp))⟩
  | cons b bs ih =>
    have hin := h.inside
    have hfin := fin_eq (hin b List.mem_cons_self).1
    obtain ⟨hal, hsz, hk, hmark, hrest⟩ := h
    have htop := (hin b List.mem_cons_self).2.2
    refine ⟨hal, hsz, hk, hmark.congr (fun a h1 h2 => hm a h1 ?_ ?_), ih hrest ?_⟩
    · exact Nat.lt_of_lt_of_le h2 (Nat.mul_le_mul_right _ (by omega))
    · intro c hc
      left
      rw [(hin c hc).1]
      rcases List.mem_cons.mp hc with rfl | hc
      · exact h2
      · have := (hrest.inside c hc).2.1
        exact Nat.lt_of_lt_of_le h2 (Nat.mul_le_mul_right _ (by omega))
    · intro a h1 h2 hout
      refine hm a (Nat.le_trans (Nat.mul_le_mul_right _ (by omega)) h1) h2 ?_
      intro c hc
      rcases List.mem_cons.mp hc with rfl | hc
      · exact Or.inr (hfin ▸ h1)
      · exact hout c hc

theorem absorb {g : Nat} (hmark : Marked m k g) (hk : k ≤ g) (h : Gaps m n g bs) : Gaps m n k bs := by
  cases bs with
  | nil => exact ⟨by have := h.1; omega, hmark.append h.2 h.1⟩
  | cons b bs =>
    obtain ⟨hal, hsz, hg, hmark', hrest⟩ := h
    exact ⟨hal, hsz, by omega, hmark.append hmark' hg, hrest⟩

theorem settle (h : Gaps m n k bs) : Gaps m n (nextKb n bs) bs := by
  cases bs with
  | nil => exact ⟨Nat.le_refl _, fun j h1 h2 => absurd h2 (by have : nextKb n [] = n := rfl; omega)⟩
  | cons b bs =>
    obtain ⟨hal, hsz, -, -, hrest⟩ := h
    exact ⟨hal, hsz, Nat.le_refl _, fun j h1 h2 => absurd h2 (Nat.not_lt.mpr h1), hrest⟩

theorem first (h : Gaps m n k bs) : Marked m k (nextKb n bs) := by
  cases bs with
  | nil => exact h.2
  | cons b bs => exact h.2.2.2.1

theorem erase {i : Nat} {b : Block} (h : Gaps m n k bs) (hi : bs[i]? = some b)
    (hm : ∀ a, a < b.ptr ∨ b.fin ≤ a → m' a = m a) (hmark : Marked m' b.kb (b.kb + b.sizeKb)) :
    Gaps m' n k (bs.eraseIdx i) := by
  induction bs generalizing k i with
  | nil => simp at hi
  | cons c bs ih =>
    have hin := h.inside
    obtain ⟨hal, hsz, hk, hgap, hrest⟩ := h
    cases i with
    | zero =>
      obtain rfl : c = b := by simpa using hi
      have hptr := (hin c List.mem_cons_self).1
      have hfin := fin_eq hptr
      have hrest' : Gaps m' n (c.kb + c.sizeKb) bs :=
        hrest.congr (fun a h1 _ _ => hm a (Or.inr (hfin ▸ h1)))
      have hgap' : Marked m' k c.kb := hgap.congr (fun a _ h2 => hm a (Or.inl (hptr ▸ h2)))
      exact absorb hgap' hk (absorb hmark (by omega) hrest')
    | succ i =>
      have hi' : bs[i]? = some b := by simpa using hi
      have hb : b ∈ bs := List.mem_of_getElem? hi'
      have hbelow := (hrest.inside b hb).2.1
      have hptr := (hrest.inside b hb).1
      refine ⟨hal, hsz, hk, hgap.congr (fun a _ h2 => hm a (Or.inl ?_)), ih hrest hi'⟩
      rw [hptr]
      exact Nat.lt_of_lt_of_le h2 (Nat.mul_le_mul_right _ (by omega))

end Gaps

theorem freeUnused_gaps {m : Store} {n : Nat} {live : List Block} (hn : n ≤ 640)
    (h : Gaps m n (fbms m) live) (hlow : fbms m ≠ nextKb n live → 2 ≤ fbms m)
    (hmagic : le32 m (nextKb n live * 1024) ≠ freeBlockMagic) :
    ∃ m', freeUnusedBaseMemory rounds m = some m' ∧ fbms m' = nextKb n live ∧
      Gaps m' n (nextKb n live) live ∧ ∀ a, nextKb n live * 1024 ≤ a → a < 2 ^ 32 → m' a = m a := by
  have hle := h.le_nextKb
  have htop := h.settle.le_top
  obtain ⟨m', hrun, hfb, hsame⟩ := freeUnused_spec (Nat.le_trans htop hn) (nextKb n live - fbms m) m
    rounds (by omega) (fun hd => hlow (by omega)) h.first hmagic
    (by simp only [rounds, baseMemoryMax]; omega)
  refine ⟨m', hrun, hfb, h.settle.congr (fun a h1 h2 _ => hsame a h1 ?_), hsame⟩
  exact Nat.lt_of_lt_of_le h2 (Nat.le_trans (Nat.mul_le_mul_right _ hn) (by decide))

/-! ## The invariant -/

namespace Session

structure Inv (s : Session) : Prop where
  running : s.hung = false
  top : s.initial ≤ 640
  gaps : Gaps s.mem s.initial (fbms s.mem) s.live
  settled : fbms s.mem = nextKb s.initial s.live
  low : s.live ≠ [] → 2 ≤ fbms s.mem

variable {s : Session} {size : Nat} {m : Store}

theorem Inv.sound (hs : Inv s) : Sound s := by
  have hin := hs.gaps.inside
  refine ⟨hs.running, ?_, ?_, ?_, ?_, ?_⟩
  · intro b hb
    rw [(hin b hb).1, Nat.mul_mod_left]
  · intro b hb
    obtain ⟨hptr, hk, htop⟩ := hin b hb
    rw [Gaps.fin_eq hptr, hptr]
    exact ⟨Nat.mul_le_mul_right _ hk, Nat.mul_le_mul_right _ htop⟩
  · refine hs.gaps.apart.imp_of_mem (fun hb hc hbc => Or.inl ?_)
    rw [Gaps.fin_eq (hin _ hb).1, (hin _ hc).1]
    exact Nat.mul_le_mul_right _ hbc
  · intro hne
    have hset := hs.settled
    cases hlive : s.live with
    | nil => exact absurd hlive hne
    | cons b bs =>
      rw [hlive] at hset
      refine ⟨b, List.mem_cons_self, ?_⟩
      rw [(hin b (hlive ▸ List.mem_cons_self)).1, hset]
      rfl
  · intro hnil
    rw [hs.settled, hnil]
    rfl

/-- The walk stops in front of the lowest live block, or at the initial counter. -/
theorem NoMagic.next (h : NoMagic s) (hin : ∀ b ∈ s.live, b.ptr = b.kb * 1024)
    {live : List Block} (hsub : ∀ b ∈ live, b ∈ s.live) :
    le32 s.mem (nextKb s.initial live * 1024) ≠ freeBlockMagic := by
  cases live with
  | nil => exact h.initial
  | cons b bs =>
    have hb := hsub b List.mem_cons_self
    have := h.live b hb
    rwa [hin b hb] at this

theorem kilobytes_eq (h : size ≤ 640 * 1024) :
    (((size + 1023) % 2 ^ 32) >>> 10) % 2 ^ 16 = (size + 1023) / 1024 := by
  rw [Nat.shiftRight_eq_div_pow]; omega

theorem Inv.push (hs : Inv s) {q : Nat}
    (hq : (size + 1023) / 1024 = q) (hpos : 0 < q) (hclear : q + 2 ≤ fbms s.mem)
    (hgaps : Gaps m s.initial (fbms s.mem) s.live) :
    Inv { s with
      mem := memset (setFbms m (fbms s.mem - q)) ((fbms s.mem - q) * 1024) 0 (q * 1024)
      live := ⟨(fbms s.mem - q) * 1024, size⟩ :: s.live } := by
  have htop := hs.top
  have hk := hs.gaps.le_top
  generalize fbms s.mem = k at *
  obtain ⟨j, rfl⟩ : ∃ j, k = j + q := ⟨k - q, by omega⟩
  rw [Nat.add_sub_cancel]
  have hcnt : fbms (memset (setFbms m j) (j * 1024) 0 (q * 1024)) = j := by
    rw [← fbms_setFbms m (show j < 2 ^ 16 by omega)]
    refine fbms_congr (fun a ha => ?_)
    rw [fbms_setFbms m (show j < 2 ^ 16 by omega)]
    exact clear_above (by omega) (by omega) (Or.inl (by omega))
  have hkb : Block.kb ⟨j * 1024, size⟩ = j := Nat.mul_div_cancel j (by decide)
  refine ⟨hs.running, htop, ?_, ?_, fun _ => by rw [hcnt]; omega⟩
  · rw [hcnt]
    have hsz : Block.sizeKb ⟨j * 1024, size⟩ = q := hq
    refine ⟨Nat.mul_mod_left .., hsz.symm ▸ hpos, by omega, ?_, ?_⟩
    · exact fun i h1 h2 => absurd h2 (by omega)
    · rw [hkb, hsz]
      refine hgaps.congr (fun a h1 h2 _ => ?_)
      rw [Nat.add_mul] at h1
      show memset (setFbms m j) (j * 1024) 0 (q * 1024) a = m a
      rw [clear_above (by omega) (by omega) (Or.inr h1)]
      exact setFbms_above m _ (by omega)
  · rw [hcnt]
    exact hkb.symm

theorem inv_allot (hs : Inv s) (hlegal : Legal s (.allot size))
    (hclear : Clear s (.allot size)) : StepOk s (.allot size) ∧ Inv (s.step (.allot size)) := by
  obtain ⟨⟨hpos, hmax⟩, hmagic⟩ := hlegal
  have hin := hs.gaps.inside
  have hk := hs.gaps.le_top
  have htop := hs.top
  -- there is nothing to return to the BIOS
  obtain ⟨m', hrun, hfb, hgaps, -⟩ := freeUnused_gaps hs.top hs.gaps (fun h => absurd hs.settled h)
    (hmagic.next (fun b hb => (hin b hb).1) (fun b hb => hb))
  rw [← hs.settled] at hfb hgaps
  have hcnt : fbms (setFbms m' (fbms s.mem - (size + 1023) / 1024)) =
      fbms s.mem - (size + 1023) / 1024 := fbms_setFbms m' (by omega)
  by_cases hfail : (size + 1023) / 1024 > fbms s.mem
  · have hallot : allotBaseMemory s.mem size = some (none, m') := by
      simp only [allotBaseMemory, hrun, kilobytes_eq hmax, hfb, if_pos hfail]
    have hinv : Inv (s.step (.allot size)) := by
      simp only [step, hallot]
      refine ⟨hs.running, hs.top, ?_, ?_, fun h => ?_⟩
      · rw [hfb]; exact hgaps
      · rw [hfb]; exact hs.settled
      · rw [hfb]; exact hs.low h
    exact ⟨⟨hinv.sound, fun _ heq _ => by cases heq; exact hfail⟩, hinv⟩
  · have hallot : allotBaseMemory s.mem size =
        some (some ((fbms s.mem - (size + 1023) / 1024) * 1024),
          memset (setFbms m' (fbms s.mem - (size + 1023) / 1024))
            ((fbms s.mem - (size + 1023) / 1024) * 1024) 0 ((size + 1023) / 1024 * 1024)) := by
      simp only [allotBaseMemory, hrun, kilobytes_eq hmax, hfb, if_neg hfail, freeBaseMemory_eq, hcnt,
        Nat.shiftLeft_eq _ 10]
    have hinv : Inv (s.step (.allot size)) := by
      simp only [step, hallot]
      exact hs.push rfl (by omega) (hclear.resolve_left hfail) hgaps
    refine ⟨⟨hinv.sound, fun _ heq ⟨m, hm⟩ => ?_⟩, hinv⟩
    cases heq
    cases hallot.symm.trans hm

/-- Freeing a block does not change what stands behind the first gap. -/
theorem le32_nextKb {m' : Store} {n k i : Nat} {b : Block} {bs : List Block} (h : Gaps m n k bs)
    (hi : bs[i]? = some b) (hm : ∀ a, a < b.ptr ∨ b.fin ≤ a → m' a = m a) :
    le32 m' (nextKb n (bs.eraseIdx i) * 1024) = le32 m (nextKb n (bs.eraseIdx i) * 1024) := by
  have hin := h.inside
  have hb := List.mem_of_getElem? hi
  refine le32_congr (fun j hj => hm _ ?_)
  rw [Gaps.fin_eq (hin b hb).1, (hin b hb).1]
  cases bs with
  | nil => simp at hi
  | cons c bs =>
    obtain ⟨-, hsz, -, -, hrest⟩ := h
    cases i with
    | zero =>
      obtain rfl : c = b := by simpa using hi
      exact Or.inr (Nat.le_trans (Nat.mul_le_mul_right _ hrest.le_nextKb) (Nat.le_add_right _ _))
    | succ i =>
      have hi' : bs[i]? = some b := by simpa using hi
      have hbelow := (hrest.inside b (List.mem_of_getElem? hi')).2.1
      have hnext : nextKb n ((c :: bs).eraseIdx (i + 1)) = c.kb := rfl
      left
      omega

theorem inv_free (hs : Inv s) (i : Nat) (hlegal : Legal s (.free i)) : Inv (s.step (.free i)) := by
  have hin := hs.gaps.inside
  simp only [step]
  split
  · exact hs
  · next b hi =>
    have hb := List.mem_of_getElem? hi
    have hlow := hs.low (List.ne_nil_of_mem hb)
    obtain ⟨hptr, hkb, htop⟩ := hin b hb
    have hn := hs.top
    have hsz : 0 < b.sizeKb := hs.gaps.sizeKb_pos b hb
    have hsize : 1 ≤ b.size ∧ b.size ≤ 640 * 1024 := by
      unfold Block.sizeKb at hsz htop; omega
    have hrem : b.ptr &&& 1023 = 0 := by
      rw [show (1023 : Nat) = 2 ^ 10 - 1 from rfl, Nat.and_two_pow_sub_one_eq_mod, hptr]
      exact Nat.mul_mod_left ..
    -- the block is marked; nothing else changes before the walk
    have hout : ∀ a, a < b.ptr ∨ b.fin ≤ a → markFree s.mem b.ptr b.sizeKb a = s.mem a :=
      fun a ha => markFree_outside s.mem ha
    have hmarked : Marked (markFree s.mem b.ptr b.sizeKb) b.kb (b.kb + b.sizeKb) := by
      rw [hptr]
      exact markFree_marked s.mem (by omega)
    have hcnt : fbms (markFree s.mem b.ptr b.sizeKb) = fbms s.mem :=
      fbms_congr (fun a ha => hout a (Or.inl (by rw [hptr]; omega)))
    have hgaps := hs.gaps.erase hi hout hmarked
    have hmagic := le32_nextKb hs.gaps hi hout ▸ NoMagic.next hlegal (fun b hb => (hin b hb).1)
      (fun c hc => List.mem_of_mem_eraseIdx hc)
    rw [← hcnt] at hgaps hlow
    obtain ⟨m', hrun, hfb, hgaps', -⟩ := freeUnused_gaps hs.top hgaps (fun _ => hlow) hmagic
    have hforget : forgetBaseMemory s.mem (some b.ptr) b.size = some m' := by
      simp only [forgetBaseMemory, hrem, Nat.add_zero, Nat.sub_zero, kilobytes_eq hsize.2]
      rw [if_neg (by omega)]
      exact hrun
    rw [hforget]
    refine ⟨hs.running, hs.top, ?_, hfb, fun _ => ?_⟩
    · rw [hfb]; exact hgaps'
    · rw [hfb]
      exact Nat.le_trans hlow hgaps.le_nextKb

theorem inv_write (hs : Inv s) (a : Nat) (v : UInt8) : Inv (s.step (.write a v)) := by
  simp only [step]
  split
  · next hw =>
    simp only [writable, Bool.and_eq_true, bne_iff_ne, ne_eq, Bool.or_eq_true, decide_eq_true_eq,
      List.any_eq_true, freeBaseMemory_eq] at hw
    obtain ⟨⟨h3, h4⟩, hw⟩ := hw
    have hcnt : fbms (s.mem.set a v) = fbms s.mem :=
      le16_congr (fun k hk => Store.set_of_ne _ _ (by omega))
    refine ⟨hs.running, hs.top, ?_, hcnt ▸ hs.settled, fun h => hcnt ▸ hs.low h⟩
    rw [hcnt]
    refine hs.gaps.congr (fun c h1 h2 hout => Store.set_of_ne _ _ ?_)
    rintro rfl
    rcases hw with (hw | hw) | ⟨b, hb, hw⟩
    · exact absurd h1 (Nat.not_le.mpr hw)
    · exact absurd h2 (Nat.not_lt.mpr hw)
    · rcases hout b hb with hlt | hge
      · exact absurd hw.1 (Nat.not_le.mpr hlt)
      · exact absurd hw.2 (Nat.not_lt.mpr hge)
  · exact hs

theorem step_ok (hs : Inv s) (e : Event) (hq : Legal s e ∧ Clear s e) : StepOk s e ∧ Inv (s.step e) := by
  cases e with
  | allot size => exact inv_allot hs hq.1 hq.2
  | free i =>
    have hinv := inv_free hs i hq.1
    exact ⟨⟨hinv.sound, nofun⟩, hinv⟩
  | write a v =>
    have hinv := inv_write hs a v
    exact ⟨⟨hinv.sound, nofun⟩, hinv⟩

theorem start_inv (h : fbms m ≤ 640) : Inv (start m) :=
  ⟨rfl, h, ⟨Nat.le_refl _, fun _ h1 h2 => absurd h2 (Nat.not_lt.mpr h1)⟩, rfl, fun h => absurd rfl h⟩

/-- Empty memory, all 640 kilobytes of it free. -/
def wholeMemory : Store := setFbms (fun _ => 0) 640

/-- **Base memory may be freed in any order.** In every session of legal calls whose allocations
    stay above the first two kilobytes, each step leaves a sound state and an allocation fails only
    if there is too little memory. -/
theorem baseMemory_sound (m : Store) (hmax : fbms m ≤ 640) (es : List Event)
    (hes : AllSteps step (fun s e => Legal s e ∧ Clear s e) (start m) es) :
    AllSteps step StepOk (start m) es :=
  hes.of_inv Inv (fun _ e hs hq => step_ok hs e hq) (start_inv hmax)

/-- 639 of 640 kilobytes are taken: the block starts at 1024, and with it the counter is cleared. -/
theorem counter_cleared :
    ((start wholeMemory).step (.allot (639 * 1024))).live = [⟨1024, 639 * 1024⟩] ∧
      fbms ((start wholeMemory).step (.allot (639 * 1024))).mem = 0 ∧
      Legal (start wholeMemory) (.allot (639 * 1024)) ∧
      ¬ StepOk (start wholeMemory) (.allot (639 * 1024)) := by
  have hlive : ((start wholeMemory).step (.allot (639 * 1024))).live = [⟨1024, 639 * 1024⟩] := by
    decide
  have hcnt : fbms ((start wholeMemory).step (.allot (639 * 1024))).mem = 0 := by decide
  refine ⟨hlive, hcnt, by decide, fun hok => ?_⟩
  obtain ⟨b, hb, hptr⟩ := hok.sound.lowest (by rw [hlive]; exact List.cons_ne_nil _ _)
  rw [hlive, List.mem_singleton] at hb
  rw [hb, hcnt] at hptr
  exact absurd hptr (by decide)

/-- Three blocks, the middle one freed first, then the newest, then the oldest. -/
theorem freed_out_of_order :
    fbms wholeMemory ≤ 640 ∧ AllSteps step StepOk (start wholeMemory)
      [.allot 1024, .allot 3000, .allot 1, .write 0x9fc00 7, .free 1, .free 0, .free 0] := by
  exact ⟨by decide, baseMemory_sound wholeMemory (by decide) _ (by decide)⟩

end Session

end Basemem
