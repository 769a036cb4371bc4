import Etherboot.Osloader.Tagged
import Etherboot.Osloader.ElfSafety

set_option autoImplicit false

/-! # What a tagged image overwrites

Each byte that `tagged_download` writes has been checked exactly if each header that it takes from memory
describes a segment that the probe has checked. The two can differ in three ways: by flags that make an
address relative, by headers behind the 512 bytes that were copied, and by a segment that goes over the
header list. An image in which none of this happens is safe (`plain_writes_checked`). -/

namespace Tagged

open Memory Osloader ImgHeader Run SegHeader

/-! ## Checked bytes -/

def Checked (rs : List (Nat × Nat)) (a : Nat) : Prop := ∃ r ∈ rs, r.1 ≤ a ∧ a < r.2

/-- The byte at `a` was checked by the probe; it lies in RAM and neither in Etherboot nor in the heap. -/
structure ByteSafe (m : Machine) (rs : List (Nat × Nat)) (a : Nat) : Prop where
  checked : Checked rs a
  ram : ∃ r ∈ m.map, r.type = e820Ram ∧ r.addr.toNat ≤ a ∧ a < r.addr.toNat + r.size.toNat
  etherboot : a < m.text.toNat ∨ m.end_.toNat ≤ a
  heap : a < m.heapPtr.toNat ∨ m.heapBot.toNat ≤ a

theorem byteSafe_iff {m : Machine} {rs : List (Nat × Nat)} (h : ∀ r ∈ rs, Passed m r) {a : Nat} :
    ByteSafe m rs a ↔ Checked rs a := by
  refine ⟨ByteSafe.checked, fun hchecked => ?_⟩
  obtain ⟨r, hr, hlo, hhi⟩ := hchecked
  obtain ⟨mem, mem', hok⟩ := h r hr
  obtain ⟨-, htext, hheap, ⟨region, hregion, hfits⟩, -⟩ := prepSegment_ok hok
  obtain ⟨htype, hstart, hend⟩ := fits_eq_true.mp hfits
  refine ⟨⟨r, hr, hlo, hhi⟩, ⟨region, hregion, htype, by omega, ?_⟩, ?_, ?_⟩
  · omega
  · rcases overlaps_eq_false.mp htext with h | h <;> omega
  · rcases overlaps_eq_false.mp hheap with h | h <;> omega

/-- All the bytes of a copy. -/
def CopySafe (m : Machine) (rs : List (Nat × Nat)) (c : Copy) : Prop :=
  ∀ k < c.n, ByteSafe m rs ((c.dst + k) % 2 ^ 32)

/-! ## Fitting headers -/

/-- The next header in memory, if it is taken and not refused for its length, describes a segment all of
    whose bytes were checked by the probe. -/
def HeaderFits (s : Run) : Prop :=
  s.exit = none → s.tctx.seglen = 0 → s.tctx.segflags &&& 0x04 = 0 → s.header.length ≠ 0 →
    ∀ k < s.header.imglength.toNat,
      Checked s.checked ((s.header.address s.tctx s.memsize + k) % 2 ^ 32)

/-- All copies so far were checked, and so is what is missing of the segment. -/
structure Inv (rs : List (Nat × Nat)) (s : Run) : Prop where
  same : s.checked = rs
  log : ∀ c ∈ s.log, ∀ k < c.n, Checked rs ((c.dst + k) % 2 ^ 32)
  rest : s.exit ≠ some .restart → ∀ k < s.tctx.seglen, Checked rs ((s.tctx.curaddr + k) % 2 ^ 32)

section Run

variable {rs : List (Nat × Nat)} {s : Run}

theorem piece_le_seglen (s : Run) : s.piece ≤ s.tctx.seglen := by
  rw [piece]
  split <;> omega

theorem inv_copy (h : Inv rs s) (hexit : s.exit = none) : Inv rs s.copy := by
  have hrest := h.rest (by rw [hexit]; decide)
  refine ⟨h.same, fun c hc k hk => ?_, fun _ k hk => ?_⟩
  · rcases List.mem_append.mp hc with hold | hnew
    · exact h.log c hold k hk
    · obtain rfl := List.mem_singleton.mp hnew
      exact hrest k (Nat.lt_of_lt_of_le hk (piece_le_seglen s))
  · have hk : k < s.tctx.seglen - s.piece := hk
    have hbyte := hrest (s.piece + k) (by omega)
    show Checked rs (((s.tctx.curaddr + s.piece) % 2 ^ 32 + k) % 2 ^ 32)
    rw [Nat.mod_add_mod, Nat.add_assoc]
    exact hbyte

theorem inv_step (h : Inv rs s) (hexit : s.exit = none) (hfits : HeaderFits s) : Inv rs s.step := by
  rcases s.step_cases with ⟨hseg, -, heq⟩ | ⟨hseg, hflags, heq⟩ | ⟨-, -, heq⟩ | ⟨-, -, heq⟩
  · rw [heq]
    refine ⟨h.same, h.log, fun _ k hk => absurd hk ?_⟩
    rw [show s.top.tctx.seglen = 0 from hseg]
    exact Nat.not_lt_zero k
  · rw [heq]
    refine ⟨h.same, h.log, fun hno k hk => ?_⟩
    have hlength : s.header.length ≠ 0 := fun hzero => hno (if_pos hzero)
    have hbyte := hfits hexit hseg hflags hlength k hk
    rw [h.same] at hbyte
    exact hbyte
  · rw [heq]
    exact ⟨h.same, h.log, fun _ => h.rest (by rw [hexit]; decide)⟩
  · rw [heq]
    exact inv_copy (s := s.top) ⟨h.same, h.log, h.rest⟩ hexit

theorem Inv.turn (h : Inv rs s) (e : Event) (hfits : HeaderFits s) : Inv rs (s.turn e) := by
  cases e with
  | tick =>
    rw [Run.turn]
    split
    · next hexit => exact inv_step h hexit hfits
    · exact h
  | block b eof =>
    rw [Run.turn]
    split
    swap
    · exact h
    next hexit =>
    have hrest := h.rest (by rw [hexit]; decide)
    rw [enter]
    split
    · split <;> exact ⟨h.same, h.log, fun _ => hrest⟩
    · exact ⟨h.same, h.log, fun _ => hrest⟩

theorem inv_run (h : Inv rs s) (hfits : ∀ es, HeaderFits (s.run es)) (es : List Event) :
    Inv rs (s.run es) := by
  induction es generalizing s with
  | nil => exact h
  | cons e es ih => exact ih (h.turn e (hfits [])) (fun es' => hfits (e :: es'))

theorem run_checked (s : Run) (es : List Event) : (s.run es).checked = s.checked := by
  induction es generalizing s with
  | nil => rfl
  | cons e es ih =>
    refine (ih (s.turn e)).trans ?_
    cases e with
    | tick =>
      rw [turn]
      split
      · rcases s.step_cases with ⟨-, -, heq⟩ | ⟨-, -, heq⟩ | ⟨-, -, heq⟩ | ⟨-, -, heq⟩
        all_goals
          rw [heq]
          rfl
      · rfl
    | block b eof =>
      rw [turn, enter]
      split
      · split
        · split <;> rfl
        · rfl
      · rfl

/-! ## Every byte of a segment is written in some run -/

theorem first_turn (h : s.exit = none → s.tctx.first = false) (e : Event) :
    (s.turn e).exit = none → (s.turn e).tctx.first = false := by
  intro hnone
  cases e with
  | tick =>
    rw [turn] at hnone ⊢
    split at hnone
    · next hexit =>
      rw [if_pos hexit]
      rcases s.step_cases with ⟨-, -, heq⟩ | ⟨-, -, heq⟩ | ⟨-, -, heq⟩ | ⟨-, -, heq⟩
      all_goals
        rw [heq]
        exact h hexit
    · next hexit => exact absurd hnone hexit
  | block b eof =>
    rw [turn] at hnone ⊢
    split at hnone
    · next hexit =>
      rw [if_pos hexit]
      rw [enter]
      split
      · split <;> rfl
      · next hfirst => exact Bool.eq_false_iff.mpr hfirst
    · next hexit =>
      rw [if_neg hexit]
      exact h hnone

theorem first_run (h : s.exit = none → s.tctx.first = false) (es : List Event) :
    (s.run es).exit = none → (s.run es).tctx.first = false := by
  induction es generalizing s with
  | nil => exact h
  | cons e es ih => exact ih (first_turn h e)

/-- A copy of `s` has the byte at `a`. -/
def Writes (s : Run) (a : Nat) : Prop := ∃ c ∈ s.log, ∃ j < c.n, (c.dst + j) % 2 ^ 32 = a

/-- One byte. -/
def oneByte : Block := ⟨[0], fun _ => 0, 0, by decide⟩

/-- With data in the block, the next piece has the byte, or it comes in a later one. -/
theorem exists_writes_of_len {k : Nat}
    (ih : ∀ k' < k, ∀ s : Run, s.exit = none → s.tctx.first = false → k' < s.tctx.seglen →
      ∃ es, Writes (s.run es) ((s.tctx.curaddr + k') % 2 ^ 32))
    (hexit : s.exit = none) (hfirst : s.tctx.first = false) (hk : k < s.tctx.seglen) (hlen : s.len ≠ 0) :
    ∃ es, Writes (s.run es) ((s.tctx.curaddr + k) % 2 ^ 32) := by
  have hturn : s.turn .tick = s.top.copy := by
    rcases s.step_cases with ⟨h, -⟩ | ⟨h, -⟩ | ⟨-, h, -⟩ | ⟨-, -, heq⟩
    · omega
    · omega
    · exact absurd h hlen
    · rw [turn, if_pos hexit, heq]
  have hpiece : s.piece = if s.tctx.seglen > s.len then s.len else s.tctx.seglen := rfl
  by_cases hin : k < s.piece
  · refine ⟨[.tick], ⟨s.tctx.curaddr, s.consumed, s.piece⟩, ?_, k, hin, rfl⟩
    show _ ∈ (s.turn .tick).log
    rw [hturn]
    exact List.mem_append.mpr (Or.inr (List.mem_singleton.mpr rfl))
  · have hpos : 0 < s.piece := by
      rw [hpiece]
      split <;> omega
    obtain ⟨es, hes⟩ := ih (k - s.piece) (by omega) s.top.copy hexit hfirst (by
      show k - s.piece < s.tctx.seglen - s.piece
      omega)
    refine ⟨.tick :: es, ?_⟩
    have hrun : s.run (.tick :: es) = (s.top.copy).run es := by
      show (s.turn .tick).run es = _
      rw [hturn]
    rw [hrun]
    have haddr : (s.top.copy.tctx.curaddr + (k - s.piece)) % 2 ^ 32 = (s.tctx.curaddr + k) % 2 ^ 32 := by
      show ((s.tctx.curaddr + s.piece) % 2 ^ 32 + (k - s.piece)) % 2 ^ 32 = _
      rw [Nat.mod_add_mod, Nat.add_assoc, Nat.add_sub_cancel' (Nat.le_of_not_lt hin)]
    rw [← haddr]
    exact hes

/-- If the file goes on long enough, every byte of the segment is written. -/
theorem exists_writes {k : Nat} (hexit : s.exit = none) (hfirst : s.tctx.first = false)
    (hk : k < s.tctx.seglen) : ∃ es, Writes (s.run es) ((s.tctx.curaddr + k) % 2 ^ 32) := by
  induction k using Nat.strong_induction_on generalizing s with
  | _ k ih =>
    by_cases hlen : s.len = 0
    · -- the call returns, and another byte comes
      let s' : Run := { s.top with data := oneByte.data, len := 1, eof := false, exit := none }
      have hnext : s.run [.tick, .block oneByte false] = s' := by
        rcases s.step_cases with ⟨h, -⟩ | ⟨h, -⟩ | ⟨-, -, heq⟩ | ⟨-, h, -⟩
        · omega
        · omega
        · show (s.turn .tick).turn (.block oneByte false) = s'
          rw [show s.turn .tick = s.step from if_pos hexit, heq, turn, if_pos rfl, enter,
            if_neg (by rw [show s.top.tctx.first = false from hfirst]; decide)]
          rfl
        · exact absurd hlen h
      obtain ⟨es, hes⟩ := exists_writes_of_len (s := s') (fun k' hk' s hexit hfirst hk =>
        ih k' hk' hexit hfirst hk) rfl hfirst hk Nat.one_ne_zero
      refine ⟨[.tick, .block oneByte false] ++ es, ?_⟩
      rw [run_append, hnext]
      exact hes
    · exact exists_writes_of_len (fun k' hk' s hexit hfirst hk => ih k' hk' hexit hfirst hk)
        hexit hfirst hk hlen

theorem Begins.inv {m : Machine} {memsize : UInt32} {mem : Store} {b : Block} (h : Begins m memsize mem b s) :
    Inv s.checked s := by
  refine ⟨rfl, ?_, fun _ k hk => absurd hk ?_⟩
  · rw [h.log]
    exact fun c hc => by cases hc
  · rw [h.tctx]
    exact Nat.not_lt_zero k

theorem Begins.copySafe {m : Machine} {memsize : UInt32} {mem : Store} {b : Block}
    (h : Begins m memsize mem b s) (hfits : ∀ es, HeaderFits (s.run es)) (es : List Event) :
    ∀ c ∈ (s.run es).log, CopySafe m s.checked c := fun c hc k hk =>
  (byteSafe_iff h.checked).mpr ((inv_run h.inv hfits es).log c hc k hk)

/-! ## Plain images -/

/-- The `n` bytes at `a` do not go over the 512 bytes at `lin`. -/
def SparesHeader (lin a n : Nat) : Prop := ∀ k < n, (a + k) % 2 ^ 32 < lin ∨ lin + 512 ≤ (a + k) % 2 ^ 32

/-- A segment with an absolute address that is apart from the header. -/
structure Plain (lin : Nat) (h : SegHeader) : Prop where
  absolute : h.flags &&& 0x03 = 0
  apart : SparesHeader lin h.loadaddr.toNat h.imglength.toNat

theorem linlocation_lt (img : ImgHeader) : img.linlocation + 512 ≤ 2 ^ 32 := by
  have hseg := img.segment.toNat_lt
  have hoff := img.offset.toNat_lt
  rw [linlocation, Nat.shiftLeft_eq]
  omega

theorem SegHeader.read_congr {f g : Store} (h : ∀ k < 16, f k = g k) :
    SegHeader.read f = SegHeader.read g := by
  rw [SegHeader.read, SegHeader.read, h 0 (by decide), h 3 (by decide), word_congr h (by decide),
    word_congr h (by decide), word_congr h (by decide)]

theorem isLast_eq_true {sh : SegHeader} : sh.isLast = true ↔ sh.flags &&& 0x04 ≠ 0 := decide_eq_true_iff

/-- The loader in front of the segment headers `hs`, for an image with the header `data` at `lin`. -/
structure Walk (data : Store) (lin : Nat) (s : Run) (hs : List SegHeader) : Prop where
  kept : ∀ k < 512, s.mem (lin + k) = data k
  last : hs = [] ↔ s.tctx.segflags &&& 0x04 ≠ 0
  next : hs ≠ [] → ∃ o, Headers data o hs ∧ s.tctx.segaddr = lin + o
  plain : ∀ h ∈ hs, Plain lin h
  apart : SparesHeader lin s.tctx.curaddr s.tctx.seglen
  small : s.tctx.seglen < 2 ^ 32

section Walk

variable {data : Store} {lin : Nat} {h : SegHeader} {hs : List SegHeader}

theorem Headers.head {o : Nat} (hhs : Headers data o (h :: hs)) :
    o + 16 ≤ 512 ∧ h = headerAt data o ∧ h.length ≠ 0 ∧ (hs = [] ↔ h.isLast = true) ∧
      (hs ≠ [] → Headers data (o + h.size) hs) := by
  cases hhs with
  | last hin hlength hlast => exact ⟨hin, rfl, hlength, iff_of_true rfl hlast, fun hne => absurd rfl hne⟩
  | more hin hlength hmore hrest =>
    refine ⟨hin, rfl, hlength, iff_of_false (fun hnil => ?_) (by rw [hmore]; exact Bool.false_ne_true),
      fun _ => hrest⟩
    cases hrest with
    | last => cases hnil
    | more => cases hnil

section

variable (hlin : lin + 512 ≤ 2 ^ 32)

include hlin

/-- The header that is taken from memory is the next one of the image. -/
theorem Walk.header (hw : Walk data lin s (h :: hs)) :
    s.header = h ∧ s.header.address s.tctx s.memsize = h.loadaddr.toNat := by
  obtain ⟨o, hheaders, haddr⟩ := hw.next (List.cons_ne_nil _ _)
  obtain ⟨hin, heq, -⟩ := hheaders.head
  have hheader : s.header = h := by
    rw [heq]
    refine read_congr (fun k hk => ?_)
    rw [haddr, Nat.mod_eq_of_lt (by omega), Nat.add_assoc]
    exact hw.kept (o + k) (by omega)
  refine ⟨hheader, ?_⟩
  rw [hheader, address, if_pos (hw.plain h (List.mem_cons_self ..)).absolute]

theorem Walk.takeHeader (hw : Walk data lin s (h :: hs)) :
    Walk data lin s.takeHeader hs ∧ s.takeHeader.exit = none := by
  obtain ⟨o, hheaders, haddr⟩ := hw.next (List.cons_ne_nil _ _)
  obtain ⟨hin, -, hlength, hlast, hnext⟩ := hheaders.head
  obtain ⟨hheader, haddress⟩ := hw.header hlin
  refine ⟨⟨hw.kept, ?_, fun hne => ?_, fun g hg => hw.plain g (List.mem_cons_of_mem _ hg), ?_, ?_⟩, ?_⟩
  · rw [hlast, isLast_eq_true, ← hheader]
    rfl
  · refine ⟨_, hnext hne, ?_⟩
    obtain ⟨g, gs, rfl⟩ := List.exists_cons_of_ne_nil hne
    obtain ⟨hroom, -⟩ := (hnext hne).head
    show (s.tctx.segaddr + s.header.size) % 2 ^ 32 = _
    rw [hheader, haddr, Nat.mod_eq_of_lt (by omega), Nat.add_assoc]
  · show SparesHeader lin (s.header.address s.tctx s.memsize) s.header.imglength.toNat
    rw [haddress, hheader]
    exact (hw.plain h (List.mem_cons_self ..)).apart
  · exact s.header.imglength.toNat_lt
  · show (if s.header.length = 0 then some Exit.restart else none) = none
    rw [hheader, if_neg hlength]

theorem Walk.copy (hw : Walk data lin s hs) : Walk data lin s.copy hs := by
  have hle := piece_le_seglen s
  have hsmall := hw.small
  refine ⟨fun k hk => ?_, hw.last, hw.next, hw.plain, fun k hk => ?_, ?_⟩
  · -- the piece is apart from the header
    show memcpy s.mem s.tctx.curaddr s.data s.piece (lin + k) = data k
    rw [memcpy, if_neg, hw.kept k hk]
    intro hhit
    have hbyte := hw.apart _ (Nat.lt_of_lt_of_le hhit hle)
    rw [add_above _ (by omega)] at hbyte
    omega
  · have hk : k < s.tctx.seglen - s.piece := hk
    show ((s.tctx.curaddr + s.piece) % 2 ^ 32 + k) % 2 ^ 32 < lin ∨ _ ≤ ((_ + s.piece) % 2 ^ 32 + k) % 2 ^ 32
    rw [Nat.mod_add_mod, Nat.add_assoc]
    exact hw.apart (s.piece + k) (by omega)
  · show s.tctx.seglen - s.piece < 2 ^ 32
    omega

theorem Walk.turn (hw : Walk data lin s hs) (e : Event) :
    ∃ hs', hs' ⊆ hs ∧ Walk data lin (s.turn e) hs' := by
  have htop : Walk data lin s.top hs := ⟨hw.kept, hw.last, hw.next, hw.plain, hw.apart, hw.small⟩
  cases e with
  | tick =>
    rw [Run.turn]
    split
    swap
    · exact ⟨hs, List.Subset.refl _, hw⟩
    rcases s.step_cases with ⟨-, -, heq⟩ | ⟨-, hflags, heq⟩ | ⟨-, -, heq⟩ | ⟨-, -, heq⟩
    · rw [heq]
      exact ⟨hs, List.Subset.refl _, htop.kept, htop.last, htop.next, htop.plain, htop.apart, htop.small⟩
    · obtain ⟨h, hs, rfl⟩ := List.exists_cons_of_ne_nil (fun hnil => hw.last.mp hnil hflags)
      rw [heq]
      exact ⟨hs, List.subset_cons_self .., (htop.takeHeader hlin).1⟩
    · rw [heq]
      exact ⟨hs, List.Subset.refl _, htop.kept, htop.last, htop.next, htop.plain, htop.apart, htop.small⟩
    · rw [heq]
      exact ⟨hs, List.Subset.refl _, htop.copy hlin⟩
  | block b eof =>
    refine ⟨hs, List.Subset.refl _, ?_⟩
    rw [Run.turn, Run.enter]
    split_ifs <;> exact ⟨hw.kept, hw.last, hw.next, hw.plain, hw.apart, hw.small⟩

theorem Walk.run (hw : Walk data lin s hs) (es : List Event) :
    ∃ hs', hs' ⊆ hs ∧ Walk data lin (s.run es) hs' := by
  induction es generalizing s hs with
  | nil => exact ⟨hs, List.Subset.refl _, hw⟩
  | cons e es ih =>
    obtain ⟨hs', hsub, hturn⟩ := hw.turn hlin e
    obtain ⟨hs'', hsub', hrun⟩ := ih hturn
    exact ⟨hs'', List.Subset.trans hsub' hsub, hrun⟩

end

end Walk

section Begins

variable {m : Machine} {memsize : UInt32} {mem : Store} {b : Block} {hs : List SegHeader}

/-- The walk begins. The bytes of the header are in memory, and nothing is missing of a segment. -/
theorem Begins.walk (h : Begins m memsize mem b s) (hheaders : Headers b.data (ImgHeader.read b.data).size hs)
    (hplain : ∀ h ∈ hs, Plain (ImgHeader.read b.data).linlocation h) :
    Walk b.data (ImgHeader.read b.data).linlocation s hs := by
  have hlin := linlocation_lt (ImgHeader.read b.data)
  have hne : hs ≠ [] := by
    cases hheaders with
    | last => exact List.cons_ne_nil _ _
    | more => exact List.cons_ne_nil _ _
  have hseg : s.tctx.seglen = 0 := by rw [h.tctx]
  refine ⟨fun k hk => ?_, ?_, fun _ => ⟨_, hheaders, by rw [h.tctx]⟩, hplain, fun k hk => ?_, ?_⟩
  · have hoff : above (ImgHeader.read b.data).linlocation ((ImgHeader.read b.data).linlocation + k) = k := by
      rw [above_eq_sub (Nat.le_add_right _ _) (by omega), Nat.add_sub_cancel_left]
    rw [h.mem, memcpy, hoff, if_pos hk]
  · have hflags : s.tctx.segflags = 0 := by rw [h.tctx]
    rw [hflags]
    exact iff_of_false hne (by decide)
  · rw [hseg] at hk
    cases hk
  · rw [hseg]
    decide

/-- The headers of a plain image fit whatever has been loaded. -/
theorem Begins.headerFits (h : Begins m memsize mem b s)
    (hheaders : Headers b.data (ImgHeader.read b.data).size hs)
    (hplain : ∀ h ∈ hs, Plain (ImgHeader.read b.data).linlocation h)
    (hsmall : ∀ h ∈ hs, h.loadaddr.toNat + h.imglength.toNat < 2 ^ 32) (es : List Event) :
    HeaderFits (s.run es) := by
  have hlin := linlocation_lt (ImgHeader.read b.data)
  obtain ⟨hs', hsub, hwalk⟩ := (h.walk hheaders hplain).run hlin es
  intro _ _ hflags _ k hk
  obtain ⟨g, gs, rfl⟩ := List.exists_cons_of_ne_nil (fun hnil => hwalk.last.mp hnil hflags)
  obtain ⟨hheader, haddress⟩ := hwalk.header hlin
  have hmem := hsub (List.mem_cons_self ..)
  have hend := hsmall g hmem
  rw [hheader] at hk
  rw [run_checked, haddress, Nat.mod_eq_of_lt (by omega)]
  refine ⟨_, h.headers hs hheaders g hmem, Nat.le_add_right _ _, ?_⟩
  rw [fin, Nat.mod_eq_of_lt hend]
  omega

end Begins

end Run

/-! ## Safe images -/

/-- **Safe tagged images.** For an image that the probe has accepted, whatever file follows in whatever
    blocks, every byte that `tagged_download` writes was checked, lies in RAM and outside Etherboot and its
    heap, exactly if every header that it takes, whatever was loaded before, describes a segment whose bytes
    were checked. -/
theorem tagged_writes_checked_iff (m : Machine) (memsize : UInt32) (mem : Store) (b : Block) (s : Run)
    (hprobe : taggedProbe m memsize mem b = .accepted s) :
    (∀ es, ∀ c ∈ (s.run es).log, CopySafe m s.checked c) ↔ ∀ es, HeaderFits (s.run es) := by
  have hs := taggedProbe_accepted hprobe
  refine ⟨fun hall es hexit hseg hflags hlength k hk => ?_, hs.copySafe⟩
  have hfirst := first_run (s := s) (fun hnone => by rw [hs.exit] at hnone; cases hnone) es hexit
  have hturn : (s.run es).turn .tick = (s.run es).top.takeHeader := by
    rw [turn, if_pos hexit]
    rcases (s.run es).step_cases with ⟨-, h, -⟩ | ⟨-, -, heq⟩ | ⟨h, -⟩ | ⟨h, -⟩
    · exact absurd hflags h
    · exact heq
    · exact absurd hseg h
    · exact absurd hseg h
  -- the byte is written in some run that goes on from here
  obtain ⟨es', c, hc, j, hj, haddr⟩ := exists_writes (s := (s.run es).top.takeHeader) (k := k)
    (if_neg hlength) hfirst hk
  have hrun : s.run (es ++ .tick :: es') = (s.run es).top.takeHeader.run es' := by
    rw [run_append, ← hturn]
    rfl
  rw [← hrun] at hc
  have hbyte := (hall _ c hc j hj).checked
  rw [haddr] at hbyte
  rw [run_checked]
  exact hbyte

/-- **Plain images are safe.** The headers lie in the first 512 bytes, the addresses are absolute, and no
    segment wraps around or goes over the header: then every byte that is written was checked. -/
theorem plain_writes_checked (m : Machine) (memsize : UInt32) (mem : Store) (b : Block) (s : Run)
    (hs : List SegHeader) (hprobe : taggedProbe m memsize mem b = .accepted s)
    (hheaders : Headers b.data (ImgHeader.read b.data).size hs)
    (hplain : ∀ h ∈ hs, Plain (ImgHeader.read b.data).linlocation h)
    (hsmall : ∀ h ∈ hs, h.loadaddr.toNat + h.imglength.toNat < 2 ^ 32) (es : List Event) :
    ∀ c ∈ (s.run es).log, CopySafe m s.checked c :=
  have hbegin := taggedProbe_accepted hprobe
  hbegin.copySafe (hbegin.headerFits hheaders hplain hsmall) es

/-! ## Two images -/

/-- A header that goes to the first megabyte's end, with its segment headers behind its 16 bytes. -/
def highHeader : ImgHeader := ⟨0x1B031336, 4, 0x10, 0xffff, 0x200000⟩

/-- An image with two segment headers. -/
def twoSegments (first second : SegHeader) : Block :=
  ⟨highHeader.toBytes ++ first.toBytes ++ second.toBytes ++ List.replicate 464 0 ++ [1, 2, 3, 4],
    fun _ => 0, 0x30000, by
      have hlength : (highHeader.toBytes ++ first.toBytes ++ second.toBytes).length = 48 := rfl
      rw [List.length_append, List.length_append, List.length_replicate, hlength]
      decide⟩

/-- The second segment is checked at 2M, but its address is relative: it lies as far below the first one's,
    at the begin of Etherboot. -/
def relativeImage : Block := twoSegments ⟨4, 0, 0x220000, 0, 0⟩ ⟨4, 7, 0x200000, 4, 4⟩

theorem relativeImage_accepted_unsafe :
    ∃ s, taggedProbe smallMachine 0 (fun _ => 0) relativeImage = .accepted s ∧
      ¬ ∀ es, ∀ c ∈ (s.run es).log, CopySafe smallMachine s.checked c := by
  have hrun : (taggedProbe smallMachine 0 (fun _ => 0) relativeImage).accepts (fun s => decide
      (⟨0x20000, 512, 4⟩ ∈ (s.run [.block relativeImage true, .tick, .tick, .tick]).log)) = true := by
    decide +kernel
  obtain ⟨s, hs, hlog⟩ := Probe.exists_of_accepts hrun
  refine ⟨s, hs, fun hall => ?_⟩
  have hbyte := hall _ ⟨0x20000, 512, 4⟩ (of_decide_eq_true hlog) 0 (by decide)
  exact absurd hbyte.etherboot (by decide)

/-- The segments with absolute addresses. The second one goes on behind the block. -/
def absoluteImage : Block := twoSegments ⟨4, 0, 0x220000, 0, 0⟩ ⟨4, 4, 0x200000, 7, 7⟩

/-- Its headers. -/
def absoluteSegments : List SegHeader := [⟨4, 0, 0x220000, 0, 0⟩, ⟨4, 4, 0x200000, 7, 7⟩]

theorem absoluteImage_headers :
    Headers absoluteImage.data (ImgHeader.read absoluteImage.data).size absoluteSegments := by
  have hfirst : headerAt absoluteImage.data 16 = ⟨4, 0, 0x220000, 0, 0⟩ := by decide +kernel
  have hsecond : headerAt absoluteImage.data 32 = ⟨4, 4, 0x200000, 7, 7⟩ := by decide +kernel
  have hlast := Headers.last (o := 32) (by decide) (by rw [hsecond]; decide) (by rw [hsecond]; decide)
  have hboth := Headers.more (o := 16) (by decide) (by rw [hfirst]; decide) (by rw [hfirst]; decide)
    (show Headers absoluteImage.data (16 + (headerAt absoluteImage.data 16).size) _ by
      exact hlast)
  exact hboth

theorem absoluteSegments_plain :
    ∀ h ∈ absoluteSegments, Plain (ImgHeader.read absoluteImage.data).linlocation h := by
  intro h hh
  rcases List.mem_cons.mp hh with rfl | hh
  · exact ⟨by decide, fun k hk => by cases hk⟩
  · obtain rfl := List.mem_singleton.mp hh
    refine ⟨by decide, fun k hk => Or.inr ?_⟩
    have hk : k < 7 := hk
    show 0x100000 + 512 ≤ (0x200000 + k) % 2 ^ 32
    omega

theorem absoluteImage_accepted : ∃ s, taggedProbe smallMachine 0 (fun _ => 0) absoluteImage = .accepted s := by
  have haccepted : (taggedProbe smallMachine 0 (fun _ => 0) absoluteImage).accepts (fun _ => true) = true := by
    decide +kernel
  obtain ⟨s, hs, -⟩ := Probe.exists_of_accepts haccepted
  exact ⟨s, hs⟩

theorem absoluteImage_writes_iff :
    ∃ s, taggedProbe smallMachine 0 (fun _ => 0) absoluteImage = .accepted s ∧
      ∀ es, ∀ c ∈ (s.run es).log, CopySafe smallMachine s.checked c := by
  obtain ⟨s, hs⟩ := absoluteImage_accepted
  refine ⟨s, hs, (tagged_writes_checked_iff smallMachine 0 (fun _ => 0) absoluteImage s hs).mpr ?_⟩
  exact (taggedProbe_accepted hs).headerFits absoluteImage_headers absoluteSegments_plain (by decide)

end Tagged
