import Etherboot.Lib.Memory
import Etherboot.Lib.Transition

set_option autoImplicit false

/-! # The heap

The heap (`core/heap.c`) is a stack that grows from `heap_bot` down to `heap_top`. `allot` takes a
block with a marker of four bytes in front that holds its size, `allot2` one aligned to a mask, with
a marker of eight bytes for size and mask. `forget` and `forget2` read the marker back and set
`heap_ptr` behind the block.

Two things go wrong. The address of a new block is computed in 32 bits, so that a size above
`heap_ptr` gives an address above the heap instead of a failure. And a block is rounded down from
`heap_ptr` with its marker but rounded up from its payload when it is freed, so that freeing it may
leave `heap_ptr` inside the block allotted before it. `heap_discipline_iff` says that a session
keeps its blocks apart exactly as long as neither happens. -/

namespace Alloc

open Memory

/-- `x & ~mask`. -/
def andNot (x mask : Nat) : Nat := x - (x &&& mask)

theorem andNot_le (x mask : Nat) : andNot x mask ≤ x := Nat.sub_le _ _


theorem andNot_fifteen (x : Nat) : andNot x 15 = x / 16 * 16 := by
  have h : x &&& 15 = x % 16 := Nat.and_two_pow_sub_one_eq_mod x 4
  rw [andNot, h]
  omega

/-- The variables of the heap, and the memory its markers are in. Addresses are physical. -/
structure Heap where
  heapPtr : Nat
  heapTop : Nat
  heapBot : Nat
  mem : Store

namespace Heap

/-- The address that `allot` computes for the marker. -/
def allotAddr (h : Heap) (size : Nat) : Nat := andNot (wsub h.heapPtr (size + 4)) 15

/-- `allot`: the block's address, or `none` for a null pointer. -/
def allot (h : Heap) (size : Nat) : Option Nat × Heap :=
  let addr := h.allotAddr size
  if addr < h.heapTop then (none, h)
  else (some (addr + 4), { h with heapPtr := addr, mem := h.mem.splice addr (le32Bytes size) })

/-- The address that `allot2` computes for the marker. -/
def allot2Addr (h : Heap) (size mask : Nat) : Nat := wsub (andNot (wsub h.heapPtr size) mask) 8

def allot2 (h : Heap) (size mask : Nat) : Option Nat × Heap :=
  let addr := h.allot2Addr size mask
  if addr < h.heapTop then (none, h)
  else
    let mem := h.mem.splice addr (le32Bytes size)
    let mem := mem.splice (addr + 4) (le32Bytes mask)
    (some (addr + 8), { h with heapPtr := addr, mem := mem })

def forget (h : Heap) : Option Nat → Heap
  | none => h
  | some addr =>
    let size := le32 h.mem (addr - 4)
    let addr := (addr + andNot ((size + 15) % 2 ^ 32) 15) % 2 ^ 32
    { h with heapPtr := if addr > h.heapBot then h.heapBot else addr }

def forget2 (h : Heap) : Option Nat → Heap
  | none => h
  | some addr =>
    let size := le32 h.mem (addr - 8)
    let mask := le32 h.mem (addr - 4)
    let addr := (addr + andNot ((size + mask) % 2 ^ 32) mask) % 2 ^ 32
    { h with heapPtr := if addr > h.heapBot then h.heapBot else addr }

end Heap

/-- What `allot` does: it returns a null pointer and changes nothing, or a block behind its marker at
    the new `heap_ptr`. -/
theorem Heap.allot_cases (h : Heap) (size : Nat) :
    (h.allot size = (none, h)) ∨
      h.allot size = (some (h.allotAddr size + 4),
        { h with heapPtr := h.allotAddr size, mem := h.mem.splice (h.allotAddr size) (le32Bytes size) }) := by
  simp only [Heap.allot]
  split
  · exact Or.inl rfl
  · exact Or.inr rfl

theorem Heap.allot_eq_none {h : Heap} {size : Nat} (hlt : h.allotAddr size < h.heapTop) :
    h.allot size = (none, h) := if_pos hlt

theorem Heap.allot_eq_some {h : Heap} {size : Nat} (hge : h.heapTop ≤ h.allotAddr size) :
    h.allot size = (some (h.allotAddr size + 4),
      { h with heapPtr := h.allotAddr size, mem := h.mem.splice (h.allotAddr size) (le32Bytes size) }) :=
  if_neg (Nat.not_lt.mpr hge)

theorem Heap.allotAddr_lt (h : Heap) (size : Nat) : h.allotAddr size < 2 ^ 32 :=
  Nat.lt_of_le_of_lt (andNot_le ..) (wsub_lt ..)

/-- The address of a new block: the payload and its marker, and up to 15 bytes more, below
    `heap_ptr`. -/
theorem Heap.allotAddr_eq (h : Heap) (size : Nat) (hptr : h.heapPtr < 2 ^ 32) :
    ∃ d, size ≤ d ∧ d ≤ size + 15 ∧ (h.allotAddr size + 4 + d) % 2 ^ 32 = h.heapPtr := by
  rw [Heap.allotAddr, andNot_fifteen]
  refine ⟨size + wsub h.heapPtr (size + 4) % 16, ?_⟩
  unfold wsub
  omega

/-- Of two blocks allotted one after the other, the second lies below the first, with its payload and
    up to 19 bytes more between the two. -/
theorem Heap.allot_below (h : Heap) (size size' : Nat) (hsome : (h.allot size).1.isSome = true)
    (hsome' : ((h.allot size).2.allot size').1.isSome = true) :
    ∃ d, size' ≤ d ∧ d ≤ size' + 19 ∧
      (h.allot size).1.getD 0 % 2 ^ 32 = (((h.allot size).2.allot size').1.getD 0 + d) % 2 ^ 32 := by
  rcases h.allot_cases size with hno | hyes
  · rw [hno] at hsome
    cases hsome
  · have hlt := h.allotAddr_lt size
    rw [hyes] at hsome' ⊢
    generalize h.allotAddr size = a at hlt hsome'
    generalize h.mem.splice _ _ = mem at hsome'
    rcases Heap.allot_cases { h with heapPtr := a, mem := mem } size' with hno | hyes'
    · rw [hno] at hsome'
      cases hsome'
    · obtain ⟨d, hd, hd', heq⟩ := Heap.allotAddr_eq { h with heapPtr := a, mem := mem } size' hlt
      rw [hyes']
      simp only [Option.getD_some] at heq ⊢
      exact ⟨d + 4, by omega, by omega, by omega⟩

/-! ## Sessions

A program that uses the heap as it is meant to be used: it frees its newest block, by the function
that matches the one it came from, and writes into the blocks it has. -/

/-- A live block: its marker's address, the requested size, the alignment `2^k` if it came from
    `allot2`, and `heap_ptr` as it was before. -/
structure Block where
  addr : Nat
  size : Nat
  align : Option (Fin 33)
  before : Nat
  deriving DecidableEq, Repr

namespace Block

/-- The mask it is rounded with when it is freed. -/
def mask (b : Block) : Nat :=
  match b.align with
  | none => 15
  | some k => 2 ^ k.val - 1

/-- The marker in front of the block. -/
def marker (b : Block) : List UInt8 :=
  match b.align with
  | none => le32Bytes b.size
  | some _ => le32Bytes b.size ++ le32Bytes b.mask

/-- The pointer that the program has. -/
def ptr (b : Block) : Nat := b.addr + b.marker.length

def fin (b : Block) : Nat := b.ptr + b.size

/-- The size as `forget` and `forget2` round it. -/
def rounded (b : Block) : Nat := andNot ((b.size + b.mask) % 2 ^ 32) b.mask

/-- Two blocks, with their markers, do not overlap. -/
def Apart (b c : Block) : Prop := b.fin ≤ c.addr ∨ c.fin ≤ b.addr
  deriving Decidable

end Block

structure Session where
  heap : Heap
  live : List Block

/-- `allot2 size k` asks for the alignment `2^k`, by the mask `2^k - 1`. A program writes into the
    blocks it has. -/
inductive Event where
  | allot (size : UInt32)
  | allot2 (size : UInt32) (k : Fin 33)
  | free
  | write (a : Nat) (v : UInt8)

namespace Session

/-- What a request leaves behind. -/
def receive (s : Session) (size : Nat) (align : Option (Fin 33)) : Option Nat × Heap → Session
  | (none, h) => { s with heap := h }
  | (some _, h) =>
    { heap := h
      live := { addr := h.heapPtr, size := size, align := align, before := s.heap.heapPtr } :: s.live }

/-- The newest block is freed by the function that matches the one it came from. -/
def release (h : Heap) (b : Block) : Heap :=
  match b.align with
  | none => h.forget (some b.ptr)
  | some _ => h.forget2 (some b.ptr)

def step (s : Session) : Event → Session
  | .allot size => s.receive size.toNat none (s.heap.allot size.toNat)
  | .allot2 size k => s.receive size.toNat (some k) (s.heap.allot2 size.toNat (2 ^ k.val - 1))
  | .free =>
    match s.live with
    | [] => s
    | b :: bs => { heap := release s.heap b, live := bs }
  | .write a v =>
    if s.live.any (fun b => b.ptr ≤ a && a < b.fin) then
      { s with heap := { s.heap with mem := s.heap.mem.set a v } }
    else s

/-- An untouched heap between two addresses. -/
def start (top bot : Nat) (m : Store) : Session := ⟨⟨bot, top, bot, m⟩, []⟩

/-- What a step must not break: a new block lies between `heap_top` and the old `heap_ptr`; the live
    blocks are apart from each other and between `heap_ptr` and `heap_bot`; freeing the newest block
    leaves `heap_ptr` no higher than it was before that block. -/
structure StepOk (s : Session) (e : Event) : Prop where
  inside : ∀ b, (s.step e).live = b :: s.live → s.heap.heapTop ≤ b.addr ∧ b.fin ≤ s.heap.heapPtr
  apart : (s.step e).live.Pairwise Block.Apart
  within : ∀ b ∈ (s.step e).live,
    (s.step e).heap.heapPtr ≤ b.addr ∧ b.fin ≤ (s.step e).heap.heapBot
  freed : ∀ b bs, e = .free → s.live = b :: bs → (s.step e).heap.heapPtr ≤ b.before

/-- The condition: a request is turned down or fits below `heap_ptr`, and the rounded size of a block
    to be freed fits between its payload and the old `heap_ptr`, unless that was at the bottom (or
    the sum wraps). -/
def Fits (s : Session) : Event → Prop
  | .allot size =>
    s.heap.allotAddr size.toNat < s.heap.heapTop ∨ size.toNat + 4 ≤ s.heap.heapPtr
  | .allot2 size k =>
    s.heap.allot2Addr size.toNat (2 ^ k.val - 1) < s.heap.heapTop ∨
      (size.toNat ≤ s.heap.heapPtr ∧ 8 ≤ andNot (s.heap.heapPtr - size.toNat) (2 ^ k.val - 1))
  | .free =>
    match s.live with
    | [] => True
    | b :: _ =>
      b.before = s.heap.heapBot ∨ b.ptr + b.rounded ≤ b.before ∨ 2 ^ 32 ≤ b.ptr + b.rounded
  | .write _ _ => True

/-! ## The invariant -/

/-- The blocks, newest first, lie above `ptr`, each below the `heap_ptr` it was taken from. -/
def Stacked (bot : Nat) : Nat → List Block → Prop
  | ptr, [] => ptr ≤ bot
  | ptr, b :: bs => ptr ≤ b.addr ∧ b.fin ≤ b.before ∧ Stacked bot b.before bs

structure Inv (s : Session) : Prop where
  bot_lt : s.heap.heapBot < 2 ^ 32
  stacked : Stacked s.heap.heapBot s.heap.heapPtr s.live
  marked : ∀ b ∈ s.live, s.heap.mem.Has b.addr b.marker

variable {bot ptr : Nat} {bs : List Block} {b : Block} {s : Session}

theorem Stacked.mono {ptr' : Nat} (h : Stacked bot ptr bs) (hle : ptr' ≤ ptr) : Stacked bot ptr' bs := by
  cases bs with
  | nil => exact Nat.le_trans hle h
  | cons b bs => exact ⟨Nat.le_trans hle h.1, h.2⟩

open Block

theorem addr_le_fin (b : Block) : b.addr ≤ b.ptr ∧ b.ptr ≤ b.fin := by
  unfold fin ptr; omega

theorem Stacked.le_bot (h : Stacked bot ptr bs) : ptr ≤ bot := by
  induction bs generalizing ptr with
  | nil => exact h
  | cons b bs ih =>
    have hfin := addr_le_fin b
    have hbot := ih h.2.2
    have h1 := h.1
    have h2 := h.2.1
    omega

theorem Stacked.within (h : Stacked bot ptr bs) : ∀ b ∈ bs, ptr ≤ b.addr ∧ b.fin ≤ bot := by
  induction bs generalizing ptr with
  | nil => intro b hb; cases hb
  | cons c bs ih =>
    intro b hb
    obtain ⟨hptr, hfin, hrest⟩ := h
    have hc := addr_le_fin c
    rcases List.mem_cons.mp hb with rfl | hb
    · exact ⟨hptr, Nat.le_trans hfin hrest.le_bot⟩
    · obtain ⟨h1, h2⟩ := ih hrest b hb
      exact ⟨by omega, h2⟩

theorem Stacked.apart (h : Stacked bot ptr bs) : bs.Pairwise Apart := by
  induction bs generalizing ptr with
  | nil => exact List.Pairwise.nil
  | cons c bs ih =>
    obtain ⟨-, hfin, hrest⟩ := h
    refine List.pairwise_cons.mpr ⟨fun b hb => ?_, ih hrest⟩
    exact Or.inl (Nat.le_trans hfin (hrest.within b hb).1)

theorem Stacked.payload (h : Stacked bot ptr bs) {c : Block}
    (hb : b ∈ bs) (hc : c ∈ bs) {a : Nat} (ha : b.ptr ≤ a ∧ a < b.fin) :
    a < c.addr ∨ c.ptr ≤ a := by
  induction bs generalizing ptr with
  | nil => cases hb
  | cons d bs ih =>
    obtain ⟨-, hfin, hrest⟩ := h
    have hd := addr_le_fin d
    rcases List.mem_cons.mp hb with rfl | hb'
    · rcases List.mem_cons.mp hc with rfl | hc'
      · exact Or.inr ha.1
      · have := (hrest.within c hc').1
        omega
    · rcases List.mem_cons.mp hc with rfl | hc'
      · have := (hrest.within b hb').1
        have := addr_le_fin b
        omega
      · exact ih hrest hb' hc'

/-! ## One step -/

theorem mask_lt (b : Block) : b.mask < 2 ^ 32 := by
  unfold mask
  split
  · decide
  · next k _ =>
    have hpow : 2 ^ k.val ≤ 2 ^ 32 := Nat.pow_le_pow_right (by decide) (by omega)
    omega

theorem release_eq {h : Heap} (hm : h.mem.Has b.addr b.marker) (hsize : b.size < 2 ^ 32) :
    release h b = { h with heapPtr := min h.heapBot ((b.ptr + b.rounded) % 2 ^ 32) } := by
  have hmin (x : Nat) : (if x > h.heapBot then h.heapBot else x) = min h.heapBot x := by
    split <;> omega
  have hmask := mask_lt b
  unfold release
  split
  · next hal =>
    rw [marker, hal] at hm
    have hword : le32 h.mem b.addr = b.size := le32_of_has hsize hm
    simp only [Heap.forget, hmin, rounded, mask, ptr, marker, hal,
      length_le32Bytes, Nat.add_sub_cancel, hword]
  · next k hal =>
    rw [marker, hal] at hm
    obtain ⟨h1, h2⟩ := Store.has_append.mp hm
    have hword : le32 h.mem b.addr = b.size := le32_of_has hsize h1
    have hword' : le32 h.mem (b.addr + 4) = b.mask := le32_of_has hmask h2
    have hptr : b.ptr = b.addr + 8 := by simp [ptr, marker, hal]
    simp only [Heap.forget2, hmin, rounded, hptr, Nat.add_sub_cancel, hword,
      show b.addr + 8 - 4 = b.addr + 4 by omega, hword']

theorem Inv.push (hs : Inv s) (hbefore : b.before = s.heap.heapPtr) (hfin : b.fin ≤ s.heap.heapPtr) :
    Inv { heap := { s.heap with heapPtr := b.addr, mem := s.heap.mem.splice b.addr b.marker }
          live := b :: s.live } := by
  refine ⟨hs.bot_lt, ⟨Nat.le_refl _, by rw [hbefore]; exact hfin, by rw [hbefore]; exact hs.stacked⟩, ?_⟩
  intro c hc
  rcases List.mem_cons.mp hc with rfl | hc
  · exact Store.slice_splice_self ..
  · -- the older markers lie above the new block
    have hbelow := (hs.stacked.within c hc).1
    have hb := addr_le_fin b
    have hptr : b.ptr = b.addr + b.marker.length := rfl
    exact (Store.slice_splice_of_disjoint _ (Or.inr (by omega))).trans (hs.marked c hc)

/-- Once the step is known to leave the invariant, what remains of it is where a new block lies and
    where a freed one leaves `heap_ptr`. -/
theorem Inv.stepOk {e : Event} (h : Inv (s.step e))
    (hinside : ∀ b, (s.step e).live = b :: s.live → s.heap.heapTop ≤ b.addr ∧ b.fin ≤ s.heap.heapPtr)
    (hfreed : ∀ b bs, e = .free → s.live = b :: bs → (s.step e).heap.heapPtr ≤ b.before) :
    StepOk s e :=
  ⟨hinside, h.stacked.apart, h.stacked.within, hfreed⟩

theorem Inv.heapPtr_lt (hs : Inv s) : s.heap.heapPtr < 2 ^ 32 :=
  Nat.lt_of_le_of_lt hs.stacked.le_bot hs.bot_lt

/-- A request: it is turned down, or a block with the given marker is put at `addr`. -/
theorem request_iff (hs : Inv s) {e : Event} {Q : Prop}
    (hbefore : b.before = s.heap.heapPtr) (he : e ≠ .free)
    (hstep : s.step e = if b.addr < s.heap.heapTop then s else
      { heap := { s.heap with heapPtr := b.addr, mem := s.heap.mem.splice b.addr b.marker }
        live := b :: s.live })
    (hQ : b.fin ≤ s.heap.heapPtr ↔ Q) :
    (StepOk s e ↔ b.addr < s.heap.heapTop ∨ Q) ∧ (b.addr < s.heap.heapTop ∨ Q → Inv (s.step e)) := by
  have hinv : b.addr < s.heap.heapTop ∨ Q → Inv (s.step e) := by
    intro hok
    rw [hstep]
    split
    · exact hs
    · next htop => exact hs.push hbefore (hQ.mpr (hok.resolve_left htop))
  refine ⟨⟨fun hok => ?_, fun hok => ?_⟩, hinv⟩
  · by_cases htop : b.addr < s.heap.heapTop
    · exact Or.inl htop
    · refine Or.inr (hQ.mp (hok.inside b ?_).2)
      rw [hstep, if_neg htop]
  · refine (hinv hok).stepOk (fun c hc => ?_) (fun _ _ hfree => absurd hfree he)
    rw [hstep] at hc
    split at hc
    · exact absurd (congrArg List.length hc) (by simp)
    · next htop =>
      obtain rfl : b = c := List.head_eq_of_cons_eq hc
      exact ⟨Nat.le_of_not_lt htop, hQ.mpr (hok.resolve_left htop)⟩

theorem allot_iff (hs : Inv s) (size : UInt32) :
    (StepOk s (.allot size) ↔ Fits s (.allot size)) ∧
      (Fits s (.allot size) → Inv (s.step (.allot size))) := by
  refine request_iff hs (b := ⟨s.heap.allotAddr size.toNat, size.toNat, none, s.heap.heapPtr⟩) rfl
    nofun ?_ ?_
  · simp only [step, Heap.allot]
    split <;> rfl
  · simp only [fin, ptr, marker, length_le32Bytes, Heap.allotAddr, andNot_fifteen, wsub]
    omega

theorem allot2_iff (hs : Inv s) (size : UInt32) (k : Fin 33) :
    (StepOk s (.allot2 size k) ↔ Fits s (.allot2 size k)) ∧
      (Fits s (.allot2 size k) → Inv (s.step (.allot2 size k))) := by
  have hptr := hs.heapPtr_lt
  refine request_iff hs
    (b := ⟨s.heap.allot2Addr size.toNat (2 ^ k.val - 1), size.toNat, some k, s.heap.heapPtr⟩) rfl
    nofun ?_ ?_
  · simp only [step, Heap.allot2]
    split
    · rfl
    · simp only [receive, marker, mask]
      rw [← Store.splice_append, length_le32Bytes]
  · simp only [fin, ptr, marker, List.length_append, length_le32Bytes, Heap.allot2Addr]
    by_cases hle : size.toNat ≤ s.heap.heapPtr
    · rw [wsub_of_le hle hptr]
      have hround := andNot_le (s.heap.heapPtr - size.toNat) (2 ^ k.val - 1)
      unfold wsub
      omega
    · omega

theorem free_iff (hs : Inv s) : (StepOk s .free ↔ Fits s .free) ∧ (Fits s .free → Inv (s.step .free)) := by
  cases hlive : s.live with
  | nil =>
    have hstep : s.step .free = s := by simp only [step, hlive]
    have hfits : Fits s .free := by simp only [Fits, hlive]
    refine ⟨⟨fun _ => hfits, fun _ => ?_⟩, fun _ => hstep.symm ▸ hs⟩
    refine Inv.stepOk (hstep.symm ▸ hs) (fun b hb => ?_) (fun b bs _ hcons => ?_)
    · rw [hstep, hlive] at hb; cases hb
    · rw [hlive] at hcons; cases hcons
  | cons b bs =>
    have hstacked := hs.stacked
    rw [hlive] at hstacked
    obtain ⟨-, hfin, hrest⟩ := hstacked
    have hbot := hs.bot_lt
    have hbefore := hrest.le_bot
    have hsum : b.ptr + b.size ≤ b.before := hfin
    have hrel := release_eq (hs.marked b (by simp [hlive])) (by omega)
    have hstep : s.step .free =
        { heap := { s.heap with heapPtr := min s.heap.heapBot ((b.ptr + b.rounded) % 2 ^ 32) }
          live := bs } := by
      simp only [step, hlive, hrel]
    -- the rounding adds at most the mask, so a sum that wraps is small
    have hround : b.rounded ≤ b.size + b.mask :=
      Nat.le_trans (andNot_le ..) (Nat.mod_le ..)
    have hmask := mask_lt b
    have hfits : Fits s .free ↔ min s.heap.heapBot ((b.ptr + b.rounded) % 2 ^ 32) ≤ b.before := by
      simp only [Fits, hlive]
      omega
    have hinv : Fits s .free → Inv (s.step .free) := by
      intro hok
      rw [hstep]
      exact ⟨hs.bot_lt, hrest.mono (hfits.mp hok), fun c hc => hs.marked c (by simp [hlive, hc])⟩
    refine ⟨⟨fun hok => ?_, fun hok => ?_⟩, hinv⟩
    · have := hok.freed b bs rfl hlive
      rw [hstep] at this
      exact hfits.mpr this
    · refine (hinv hok).stepOk (fun c hc => ?_) (fun c cs _ hcons => ?_)
      · rw [hstep, hlive] at hc
        have hlen : bs.length = bs.length + 1 + 1 := congrArg List.length hc
        omega
      · obtain rfl : b = c := List.head_eq_of_cons_eq (hlive.symm.trans hcons)
        rw [hstep]
        exact hfits.mp hok

theorem write_inv (hs : Inv s) (a : Nat) (v : UInt8) : Inv (s.step (.write a v)) := by
  simp only [step]
  split
  · next hin =>
    obtain ⟨b, hb, hab⟩ := List.any_eq_true.mp hin
    have hab' : b.ptr ≤ a ∧ a < b.fin := by simpa using hab
    refine ⟨hs.bot_lt, hs.stacked, fun c hc => ?_⟩
    have hout := hs.stacked.payload hb hc hab'
    refine (Store.slice_congr (fun k hk => Store.set_of_ne _ _ ?_)).trans (hs.marked c hc)
    have hcp : c.ptr = c.addr + c.marker.length := rfl
    omega
  · exact hs

theorem step_iff (hs : Inv s) (e : Event) : (StepOk s e ↔ Fits s e) ∧ (Fits s e → Inv (s.step e)) := by
  cases e with
  | allot size => exact allot_iff hs size
  | allot2 size k => exact allot2_iff hs size k
  | free => exact free_iff hs
  | write a v =>
    have hinv := write_inv hs a v
    refine ⟨⟨fun _ => trivial, fun _ => ?_⟩, fun _ => hinv⟩
    refine hinv.stepOk (fun b hb => ?_) nofun
    have hlive : (s.step (.write a v)).live = s.live := by
      simp only [step]
      split <;> rfl
    rw [hlive] at hb
    exact absurd (congrArg List.length hb) (by simp)

/-! ## Whole sessions -/

theorem start_inv {top : Nat} (hbot : bot < 2 ^ 32) (m : Store) : Inv (start top bot m) :=
  ⟨hbot, Nat.le_refl _, by simp [start]⟩

/-- **The stack discipline of the heap.** In a session of any requests, frees of the newest block
    and writes into live blocks, every step keeps the blocks apart and inside the heap, and
    `heap_ptr` below where it was, if and only if every step meets the condition. -/
theorem heap_discipline_iff (top bot : Nat) (hbot : bot < 2 ^ 32) (m : Store) (es : List Event) :
    AllSteps step StepOk (start top bot m) es ↔
      AllSteps step Fits (start top bot m) es :=
  allSteps_iff Inv (fun _ e hs => (step_iff hs e).1) (fun _ e hs => (step_iff hs e).2)
    (start_inv hbot m) es

/-- Allot 16 bytes, allot one byte and free it. -/
def tinyFree : List Event := [.allot 16, .allot 1, .free]

def tinyHeap : Session := start 0x100000 0x200000 (fun _ => 0)

/-- Freeing the one byte leaves `heap_ptr` inside the first block, and the next 16 bytes overlap its
    marker. A size just below `2^32` is not turned down but placed above the heap. -/
theorem heap_blocks_overlap :
    (tinyFree.foldl step tinyHeap).heap.heapPtr = 0x1fffe4 ∧
      ((tinyFree.foldl step tinyHeap).step (.allot 16)).live =
        [⟨0x1fffd0, 16, none, 0x1fffe4⟩, ⟨0x1fffe0, 16, none, 0x200000⟩] ∧
      ¬ Block.Apart ⟨0x1fffd0, 16, none, 0x1fffe4⟩ ⟨0x1fffe0, 16, none, 0x200000⟩ ∧
      (tinyHeap.heap.allot 0xfffffff0).1 = some 0x200004 ∧
      ¬ AllSteps step StepOk tinyHeap tinyFree ∧
      ¬ AllSteps step StepOk tinyHeap [.allot 0xfffffff0] := by
  refine ⟨by decide, by decide, by decide, by decide, ?_, ?_⟩
  · intro ⟨_, _, hfree, _⟩
    exact absurd (hfree.freed ⟨0x1fffd0, 1, none, 0x1fffe0⟩ _ rfl rfl) (by decide)
  · intro ⟨hbig, _⟩
    exact absurd (hbig.inside ⟨0x200000, 0xfffffff0, none, 0x200000⟩ rfl).2 (by decide)

/-- Blocks of both kinds, written to and freed again in order. -/
theorem heap_session_ok :
    AllSteps step StepOk tinyHeap
      [.allot 16, .write 0x1fffe4 7, .allot2 256 8, .allot 32, .free, .free, .free] ∧
      tinyHeap.heap.heapBot < 2 ^ 32 := by
  refine ⟨(heap_discipline_iff 0x100000 0x200000 (by decide) (fun _ => 0) _).mpr ?_, by decide⟩
  exact ⟨Or.inr (by decide), trivial, Or.inr (by decide), Or.inr (by decide),
    Or.inr (Or.inl (by decide)), Or.inr (Or.inl (by decide)), Or.inl (by decide), trivial⟩

end Session

end Alloc
