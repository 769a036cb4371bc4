import Etherboot.Osloader.LoadBlock
import Etherboot.Osloader.ElfSafety

set_option autoImplicit false

/-! # Loading an ELF32 image (`elf32_download` in `core/elf_loader.c`)

`elf32Download` is called with consecutive windows of the file. It copies the file part of one
`PT_LOAD` segment after the other to memory, always taking the one with the least file offset not
yet passed: it can only go forward. When no segment is left it starts the image, and it also starts
the image at the end of the file.

Next to `struct elf_state` the model carries the memory being filled and, for the specification, the
log of all copies with the file offsets they were made from.

`elf32Download_spec` says what one call does to an image whose segments have disjoint file ranges.
The invariant is `Reading`: everything before the segment being read has been copied, and the
position in the file, spread over `loc`, `skip` and `toread`, is that of the next byte of it. -/

namespace Osloader

open Memory

/-- The loader's state, the memory it fills and the copies it has made. -/
structure ElfRun where
  st : ElfState
  mem : Store
  log : List Copy

/-- How the loader leaves: it has passed `done(1)` to `elf_boot`, it has jumped back to
    `restart_etherboot`, or a loop of it does not end. -/
inductive ElfExit where
  | started (r : ElfRun)
  | restarted
  | hung

/-! ## The search for the next segment -/

/-- A segment with something to read from the file. -/
def Elf32Phdr.loadable (p : Elf32Phdr) : Prop := p.pType = ptLoad ∧ p.pFilesz ≠ 0
  deriving Decidable

/-- One turn of the search: `best` is the choice so far, an index and its header. -/
def searchStep (pos i : Nat) (p : Elf32Phdr) (best : Option (Nat × Elf32Phdr)) :
    Option (Nat × Elf32Phdr) :=
  if p.pType ≠ ptLoad then best
  else if p.pFilesz = 0 then best
  else if p.pOffset.toNat < pos then best
  else
    match best with
    | some (j, q) => if p.pOffset.toNat ≥ q.pOffset.toNat then some (j, q) else some (i, p)
    | none => some (i, p)

/-- The `for` loop that picks the segment with the least file offset at or behind `pos`. -/
def searchSegment (pos : Nat) : Nat → List Elf32Phdr → Option (Nat × Elf32Phdr) →
    Option (Nat × Elf32Phdr)
  | _, [], best => best
  | i, p :: ps, best => searchSegment pos (i + 1) ps (searchStep pos i p best)

/-! ## One call -/

/-- The state of the `do` loop: `offset` is the working offset in the window. -/
structure Work where
  run : ElfRun
  offset : Nat

/-- The window ends inside the gap before the next byte wanted. -/
def Work.shorten (len : Nat) (w : Work) : Work :=
  { w with run := { w.run with st :=
      { w.run.st with skip := w.run.st.skip - (len - w.offset) } } }

/-- Step over the gap and copy the next `cplen` bytes of the segment. -/
def Work.copy (data : Data) (cplen : Nat) (w : Work) : Work :=
  let st := w.run.st
  let offset := w.offset + st.skip
  { run := { st := { st with skip := 0, curaddr := (st.curaddr + cplen) % 2 ^ 32,
                             toread := st.toread - cplen },
             mem := memcpy w.run.mem st.curaddr (fun k => data.bytes (offset + k)) cplen,
             log := w.run.log ++ [⟨st.curaddr, data.pos + offset, cplen⟩] },
    offset := offset + cplen }

/-- The first part of the loop body: skip, then copy. The flag tells whether it ends in `break`.
    `offset` never passes `len`, so `len - offset` does not wrap. -/
def advance (data : Data) (len : Nat) (w : Work) : Work × Bool :=
  let st := w.run.st
  match st.segment with
  | none => (w, false)
  | some _ =>
    if st.skip ≠ 0 ∧ st.skip ≥ len - w.offset then (w.shorten len, true)
    else
      let left := len - (w.offset + st.skip)
      if st.toread ≠ 0 then
        let cplen := if left ≥ st.toread then st.toread else left
        (w.copy data cplen, decide (st.toread - cplen ≠ 0))
      else (⟨{ w.run with st := { st with skip := 0 } }, w.offset + st.skip⟩, false)

/-- The state in which segment `i` with header `p` is about to be read. -/
def Work.select (w : Work) (i : Nat) (p : Elf32Phdr) : Work :=
  { w with run := { w.run with st :=
      { w.run.st with segment := some i, curaddr := p.pPaddr.toNat,
                      skip := p.pOffset.toNat - (w.run.st.loc + w.offset) % 2 ^ 64,
                      toread := p.pFilesz.toNat } } }

def Work.deselect (w : Work) : Work :=
  { w with run := { w.run with st := { w.run.st with segment := none } } }

/-- The second part of the loop body: look for the next segment, `none` if there is none. -/
def nextSegment (w : Work) : Option Work :=
  match searchSegment ((w.run.st.loc + w.offset) % 2 ^ 64) 0 w.run.st.phdr none with
  | none => none
  | some (i, p) => some (w.select i p)

inductive LoopExit where
  | fellOut
  | startKernel
  | hung
  deriving DecidableEq, Repr

def elf32Loop (data : Data) (len : Nat) : Nat → Work → Work × LoopExit
  | 0, w => (w, .hung)
  | fuel + 1, w =>
    match advance data len w with
    | (w, true) => (w, .fellOut)
    | (w, false) =>
      match nextSegment w with
      | none => (w.deselect, .startKernel)
      | some w => if w.offset < len then elf32Loop data len fuel w else (w, .fellOut)

/-- The `PT_LOAD` part of the image checksum, `bytes` being the bytes summed up so far. -/
def loadsChecksum (mem : Store) : List Elf32Phdr → Nat → Nat → Nat
  | [], _, sum => sum
  | p :: ps, bytes, sum =>
    if p.pType ≠ ptLoad then loadsChecksum mem ps bytes sum
    else
      let newSum := Net.ipchksum
        ((List.range p.pMemsz.toNat).map (fun k => mem ((p.pPaddr.toNat + k) % 2 ^ 32)))
      loadsChecksum mem ps ((bytes + p.pMemsz.toNat) % 2 ^ 32)
        (Net.addIpchksums bytes sum newSum)

def imageChecksum (st : ElfState) (mem : Store) : Nat :=
  let sum := Net.ipchksum st.ehdr.toBytes
  let newSum := Net.ipchksum (st.phdr.flatMap Elf32Phdr.toBytes)
  loadsChecksum mem st.phdr (sizeofEhdr + sizeofPhdr * st.ehdr.ePhnum.toNat)
    (Net.addIpchksums sizeofEhdr sum newSum)

variable (ps : List Elf32Phdr) (r : ElfRun)

/-- The code at `elf_startkernel`. -/
def elfStartkernel : ElfExit :=
  if r.st.notes.checkIpChecksum ∧ r.st.notes.ipChecksum ≠ imageChecksum r.st r.mem then .restarted
  else .started r

/-- The part of `elf32_download` behind the loop, up to `if (eof)`. -/
def ElfRun.settle (len : Nat) : ElfRun :=
  { r with st := { r.st with loc := (r.st.loc + len + r.st.skip / 512 * 512) % 2 ^ 64,
                             skip := r.st.skip % 512 } }

def elf32Download (data : Data) (len : Nat) (eof : Bool) : Download ElfRun ElfExit :=
  match elf32Loop data len (len + 2) ⟨r, 0⟩ with
  | (_, .hung) => .left .hung
  | (w, .startKernel) => .left (elfStartkernel w.run)
  | (w, .fellOut) =>
    if eof then .left (elfStartkernel (w.run.settle len))
    else .returned (w.run.settle len) (UInt64.ofNat (w.run.st.skip / 512 % 2 ^ 32))

/-! ## The search finds the least offset -/

variable {pos : Nat} {p : Elf32Phdr} {log : List Copy}

theorem searchStep_none {i : Nat} {best : Option (Nat × Elf32Phdr)} (h : searchStep pos i p best = none) :
    best = none ∧ (p.loadable → p.pOffset.toNat < pos) := by
  unfold searchStep at h
  split at h
  · next htype => exact ⟨h, fun hl => absurd hl.1 htype⟩
  split at h
  · next hfile => exact ⟨h, fun hl => absurd hfile hl.2⟩
  split at h
  · next hoff => exact ⟨h, fun _ => hoff⟩
  split at h
  · split at h <;> exact by cases h
  · cases h

/-- A choice made is the old one or the header at hand, and no later than either. -/
theorem searchStep_some {i k : Nat} {q : Elf32Phdr} {best : Option (Nat × Elf32Phdr)}
    (h : searchStep pos i p best = some (k, q)) :
    (best = some (k, q) ∨ (k = i ∧ q = p ∧ p.loadable ∧ pos ≤ p.pOffset.toNat)) ∧
      (p.loadable → pos ≤ p.pOffset.toNat → q.pOffset.toNat ≤ p.pOffset.toNat) ∧
      (∀ b, best = some b → q.pOffset.toNat ≤ b.2.pOffset.toNat) := by
  unfold searchStep at h
  split at h
  · next htype =>
      exact ⟨.inl h, fun hl => absurd hl.1 htype, fun b hb => by rw [h] at hb; cases hb; exact le_refl _⟩
  split at h
  · next hfile =>
      exact ⟨.inl h, fun hl => absurd hfile hl.2, fun b hb => by rw [h] at hb; cases hb; exact le_refl _⟩
  split at h
  · next hoff =>
      exact ⟨.inl h, fun _ hge => absurd hoff (by omega),
        fun b hb => by rw [h] at hb; cases hb; exact le_refl _⟩
  next htype hfile hoff =>
  have hp : p.loadable ∧ pos ≤ p.pOffset.toNat := ⟨⟨not_not.mp htype, hfile⟩, by omega⟩
  split at h
  · next j q' =>
      split at h
      · next hge =>
          obtain ⟨rfl, rfl⟩ := h
          exact ⟨.inl rfl, fun _ _ => hge, fun b hb => by cases hb; exact le_refl _⟩
      · next hlt =>
          obtain ⟨rfl, rfl⟩ := h
          exact ⟨.inr ⟨rfl, rfl, hp⟩, fun _ _ => le_refl _, fun b hb => by cases hb; simp only; omega⟩
  · obtain ⟨rfl, rfl⟩ := h
    exact ⟨.inr ⟨rfl, rfl, hp⟩, fun _ _ => le_refl _, fun b hb => by cases hb⟩

theorem searchSegment_none :
    ∀ {i : Nat} {best : Option (Nat × Elf32Phdr)}, searchSegment pos i ps best = none →
      best = none ∧ ∀ p ∈ ps, p.loadable → p.pOffset.toNat < pos := by
  induction ps with
  | nil => intro i best h; exact ⟨h, fun p hp => by cases hp⟩
  | cons q qs ih =>
    intro i best h
    obtain ⟨hstep, hrest⟩ := ih h
    obtain ⟨hbest, hq⟩ := searchStep_none hstep
    exact ⟨hbest, List.forall_mem_cons.mpr ⟨hq, hrest⟩⟩

theorem searchSegment_some :
    ∀ {i k : Nat} {best : Option (Nat × Elf32Phdr)} {p : Elf32Phdr},
      searchSegment pos i ps best = some (k, p) →
      (best = some (k, p) ∨
        (i ≤ k ∧ ps[k - i]? = some p ∧ p.loadable ∧ pos ≤ p.pOffset.toNat)) ∧
      (∀ q ∈ ps, q.loadable → pos ≤ q.pOffset.toNat → p.pOffset.toNat ≤ q.pOffset.toNat) ∧
      (∀ b, best = some b → p.pOffset.toNat ≤ b.2.pOffset.toNat) := by
  induction ps with
  | nil =>
    intro i k best p h
    refine ⟨.inl h, fun q hq => absurd hq (by simp), fun b hb => ?_⟩
    rw [searchSegment, hb] at h
    cases h
    exact le_refl _
  | cons q qs ih =>
    intro i k best p h
    obtain ⟨hwhere, hmin, hle⟩ := ih h
    cases hstep : searchStep pos i q best with
    | none =>
      obtain ⟨hbest, hq⟩ := searchStep_none hstep
      refine ⟨.inr ?_, List.forall_mem_cons.mpr ⟨fun hl hge => absurd (hq hl) (by omega), hmin⟩,
        fun b hb => absurd hb (by simp [hbest])⟩
      rcases hwhere with hwhere | ⟨hik, hget, hp⟩
      · rw [hstep] at hwhere; exact absurd hwhere (by simp)
      · refine ⟨by omega, ?_, hp⟩
        rw [show k - i = (k - (i + 1)) + 1 by omega, List.getElem?_cons_succ]
        exact hget
    | some b =>
      obtain ⟨j, r⟩ := b
      obtain ⟨hfrom, hqmin, hbmin⟩ := searchStep_some hstep
      have hpr := hle (j, r) hstep
      refine ⟨?_, List.forall_mem_cons.mpr ⟨fun hl hge => le_trans hpr (hqmin hl hge), hmin⟩,
        fun b hb => le_trans hpr (hbmin b hb)⟩
      rcases hwhere with hwhere | ⟨hik, hget, hp⟩
      · cases hstep.symm.trans hwhere
        rcases hfrom with hfrom | ⟨rfl, rfl, hp⟩
        · exact .inl hfrom
        · exact .inr ⟨le_refl _, by simp, hp⟩
      · refine .inr ⟨by omega, ?_, hp⟩
        rw [show k - i = (k - (i + 1)) + 1 by omega, List.getElem?_cons_succ]
        exact hget

/-! ## How far a load has come -/

/-- Where the file part of a segment ends. -/
def Elf32Phdr.fileEnd (p : Elf32Phdr) : Nat := p.pOffset.toNat + p.pFilesz.toNat

/-- The address of byte `k` of a segment. -/
def Elf32Phdr.addr (p : Elf32Phdr) (k : Nat) : Nat := (p.pPaddr.toNat + k) % 2 ^ 32

/-- Different segments have disjoint file ranges. -/
def DisjointFiles : Prop :=
  ∀ p ∈ ps, ∀ q ∈ ps, p.loadable → q.loadable → p ≠ q →
    p.fileEnd ≤ q.pOffset.toNat ∨ q.fileEnd ≤ p.pOffset.toNat

/-- The first `n` bytes of a segment have been copied to their place. -/
def CopiedUpTo (log : List Copy) (p : Elf32Phdr) (n : Nat) : Prop :=
  ∀ k < n, Copied log (p.addr k) (p.pOffset.toNat + k)

/-- A segment that lies before `pos` and has been copied whole. -/
structure Done (log : List Copy) (pos : Nat) (p : Elf32Phdr) : Prop where
  passed : p.fileEnd ≤ pos
  copied : CopiedUpTo log p p.pFilesz.toNat

/-- Everything lies before `pos` and has been copied. -/
def Complete (log : List Copy) (pos : Nat) : Prop :=
  ∀ p ∈ ps, p.loadable → Done log pos p

/-- Between segments: each has been copied or lies ahead. -/
def Between (log : List Copy) (pos : Nat) : Prop :=
  ∀ p ∈ ps, p.loadable → Done log pos p ∨ pos ≤ p.pOffset.toNat

/-- In the middle of segment `p`: `toread` bytes of it are missing, the next of which lies `skip`
    bytes ahead. -/
structure Reading (pos : Nat) (p : Elf32Phdr) : Prop where
  mem : p ∈ ps
  loadable : p.loadable
  selected : r.st.segment ≠ none
  toread_pos : 0 < r.st.toread
  toread_le : r.st.toread ≤ p.pFilesz.toNat
  curaddr : r.st.curaddr = p.addr (p.pFilesz.toNat - r.st.toread)
  here : pos + r.st.skip = p.pOffset.toNat + (p.pFilesz.toNat - r.st.toread)
  copied : CopiedUpTo r.log p (p.pFilesz.toNat - r.st.toread)
  others : ∀ q ∈ ps, q.loadable → q ≠ p → Done r.log pos q ∨ p.fileEnd ≤ q.pOffset.toNat

/-- All copies so far go from a segment's file part to its place. -/
def Sound (log : List Copy) : Prop :=
  ∀ a x, a < 2 ^ 32 → Copied log a x →
    ∃ p ∈ ps, p.loadable ∧ ∃ k < p.pFilesz.toNat, a = p.addr k ∧ x = p.pOffset.toNat + k

theorem Elf32Phdr.loadable.filesz_pos (h : p.loadable) : 0 < p.pFilesz.toNat := by
  have hne : p.pFilesz.toNat ≠ 0 := fun h0 => h.2 (UInt32.toNat_inj.mp (by simpa using h0))
  omega

theorem Elf32Phdr.fileEnd_lt (p : Elf32Phdr) : p.fileEnd < 2 ^ 33 := by
  have hoff := p.pOffset.toNat_lt
  have hfile := p.pFilesz.toNat_lt
  unfold Elf32Phdr.fileEnd
  omega

theorem Elf32Phdr.addr_add (p : Elf32Phdr) (j k : Nat) : p.addr (j + k) = (p.addr j + k) % 2 ^ 32 := by
  simp only [Elf32Phdr.addr]
  omega

theorem Done.mono {log' : List Copy} {pos' : Nat} (h : Done log pos p)
    (hlog : ∀ c ∈ log, c ∈ log') (hpos : pos ≤ pos') : Done log' pos' p :=
  ⟨le_trans h.passed hpos, fun k hk => (h.copied k hk).mono hlog⟩

theorem Reading.bound {ps : List Elf32Phdr} {r : ElfRun}
    (h : Reading ps r pos p) : pos + r.st.skip + r.st.toread = p.fileEnd := by
  have hle := h.toread_le
  have hhere := h.here
  unfold Elf32Phdr.fileEnd
  omega

theorem copiedUpTo_append {j n : Nat} (h : CopiedUpTo log p j) (hn : n < 2 ^ 32) :
    CopiedUpTo (log ++ [⟨p.addr j, p.pOffset.toNat + j, n⟩]) p (j + n) := by
  intro k hk
  rw [copied_append, copied_singleton]
  by_cases hkj : k < j
  · exact .inl (h k hkj)
  · refine .inr ?_
    have haddr : p.addr k = (p.addr j + (k - j)) % 2 ^ 32 := by
      rw [← p.addr_add, show j + (k - j) = k by omega]
    simp only [haddr]
    rw [above_add (by omega)]
    omega

theorem sound_append {ps : List Elf32Phdr} {j n : Nat}
    (h : Sound ps log) (hp : p ∈ ps) (hload : p.loadable) (hn : j + n ≤ p.pFilesz.toNat) :
    Sound ps (log ++ [⟨p.addr j, p.pOffset.toNat + j, n⟩]) := by
  intro a x ha hcopied
  rw [copied_append, copied_singleton] at hcopied
  rcases hcopied with hold | ⟨hlt, hx⟩
  · exact h a x ha hold
  · simp only at hlt hx
    refine ⟨p, hp, hload, j + above (p.addr j) a, by omega, ?_, by omega⟩
    rw [p.addr_add, add_above _ ha]

/-! ## One call -/

section OneCall

variable (F : Nat → UInt8) (mem0 : Store) (ps : List Elf32Phdr) (ns : ElfNotes)

/-- What holds throughout a load of the file `F` that began with memory `mem0`. -/
structure ElfRun.Holds (r : ElfRun) : Prop where
  phdr : r.st.phdr = ps
  notes : r.st.notes = ns
  mem : r.mem = applyCopies F r.log mem0
  sound : Sound ps r.log

variable {F mem0 ps ns} {data : Data} {len : Nat} {w : Work} {p : Elf32Phdr} {r : ElfRun}

/-- In the middle of a segment the first part of the loop body does one of three things: it stays in
    the gap, it copies what is left of the window, or it copies what is left of the segment. -/
theorem advance_cases (hseg : w.run.st.segment ≠ none) (htoread : 0 < w.run.st.toread)
    (hoff : w.offset ≤ len) :
    (len ≤ w.offset + w.run.st.skip ∧ advance data len w = (w.shorten len, true)) ∨
    ∃ n, advance data len w = (w.copy data n, decide (n < w.run.st.toread)) ∧
      n ≤ w.run.st.toread ∧ w.offset + w.run.st.skip + n ≤ len ∧
      (n < w.run.st.toread → w.offset + w.run.st.skip + n = len) := by
  obtain ⟨seg, hsome⟩ := Option.ne_none_iff_exists'.mp hseg
  by_cases hskip : w.run.st.skip ≠ 0 ∧ w.run.st.skip ≥ len - w.offset
  · refine .inl ⟨by omega, ?_⟩
    simp only [advance, hsome, if_pos hskip]
  · refine .inr ⟨if len - (w.offset + w.run.st.skip) ≥ w.run.st.toread then w.run.st.toread
      else len - (w.offset + w.run.st.skip), ?_, ?_⟩
    · simp only [advance, hsome, if_neg hskip, if_pos (show w.run.st.toread ≠ 0 by omega),
        Nat.sub_ne_zero_iff_lt]
    · split <;> omega

theorem Work.copy_holds {n : Nat} (hw : w.run.Holds F mem0 ps ns)
    (hdata : ∀ i < len, data.bytes i = F (data.pos + i))
    (hread : Reading ps w.run (data.pos + w.offset) p) (hn : n ≤ w.run.st.toread)
    (hlen : w.offset + w.run.st.skip + n ≤ len) : (w.copy data n).run.Holds F mem0 ps ns := by
  have hhere := hread.here
  have htle := hread.toread_le
  refine ⟨hw.phdr, hw.notes, ?_, ?_⟩
  · simp only [Work.copy, applyCopies_append, applyCopies_singleton, ← hw.mem]
    refine memcpy_congr (fun k hk => ?_)
    rw [hdata _ (by omega), Nat.add_assoc data.pos]
  · have hsrc : data.pos + (w.offset + w.run.st.skip)
        = p.pOffset.toNat + (p.pFilesz.toNat - w.run.st.toread) := by omega
    simp only [Work.copy, hread.curaddr, hsrc]
    exact sound_append hw.sound hread.mem hread.loadable (by omega)

/-- After a copy of `n` bytes that many more of the segment are in place. -/
theorem Work.copy_copied (data : Data) {n : Nat}
    (hread : Reading ps w.run (data.pos + w.offset) p) (hn : n ≤ w.run.st.toread) :
    CopiedUpTo (w.copy data n).run.log p (p.pFilesz.toNat - (w.run.st.toread - n)) := by
  have hhere := hread.here
  have htle := hread.toread_le
  have hfile := p.pFilesz.toNat_lt
  have hsrc : data.pos + (w.offset + w.run.st.skip)
      = p.pOffset.toNat + (p.pFilesz.toNat - w.run.st.toread) := by omega
  rw [show p.pFilesz.toNat - (w.run.st.toread - n) = p.pFilesz.toNat - w.run.st.toread + n by omega]
  simp only [Work.copy, hread.curaddr, hsrc]
  exact copiedUpTo_append hread.copied (by omega)

theorem Work.copy_others (data : Data) (n : Nat) (hread : Reading ps w.run (data.pos + w.offset) p) :
    ∀ q ∈ ps, q.loadable → q ≠ p →
      Done (w.copy data n).run.log (data.pos + (w.copy data n).offset) q ∨ p.fileEnd ≤ q.pOffset.toNat := by
  intro q hq hload hne
  refine (hread.others q hq hload hne).imp_left (fun h => ?_)
  refine h.mono (fun _ hc => List.mem_append_left _ hc) ?_
  simp only [Work.copy]
  omega

/-- The first part of the loop body, in the middle of a segment: the window is used up, or the
    segment has been read to its end. -/
theorem advance_reading (hw : w.run.Holds F mem0 ps ns)
    (hdata : ∀ i < len, data.bytes i = F (data.pos + i)) (hoff : w.offset ≤ len)
    (hread : Reading ps w.run (data.pos + w.offset) p) :
    ∃ w' stop, advance data len w = (w', stop) ∧ w'.run.Holds F mem0 ps ns ∧
      w'.run.st.loc = w.run.st.loc ∧
      (stop = true ∧ Reading ps w'.run (data.pos + len) p ∨
        stop = false ∧ w.offset < w'.offset ∧ w'.offset ≤ len ∧
          Between ps w'.run.log (data.pos + w'.offset)) := by
  have hbound := hread.bound
  have hhere := hread.here
  have htpos := hread.toread_pos
  have htle := hread.toread_le
  rcases advance_cases hread.selected hread.toread_pos hoff with
    ⟨hgap, hadv⟩ | ⟨n, hadv, hn, hlen, hall⟩
  · refine ⟨_, _, hadv, ⟨hw.phdr, hw.notes, hw.mem, hw.sound⟩, rfl, .inl ⟨rfl, ?_⟩⟩
    refine ⟨hread.mem, hread.loadable, hread.selected, htpos, htle, hread.curaddr, ?_,
      hread.copied, fun q hq hload hne => ?_⟩
    · simp only [Work.shorten]
      omega
    · exact (hread.others q hq hload hne).imp_left (fun h => h.mono (fun _ hc => hc) (by omega))
  · have hcopied := Work.copy_copied data hread hn
    have hothers := Work.copy_others data n hread
    refine ⟨_, _, hadv, Work.copy_holds hw hdata hread hn hlen, rfl, ?_⟩
    have hoffset : (w.copy data n).offset = w.offset + w.run.st.skip + n := rfl
    by_cases hrest : n < w.run.st.toread
    · -- the window is used up
      refine .inl ⟨decide_eq_true hrest, ?_⟩
      rw [hoffset, hall hrest] at hothers
      refine ⟨hread.mem, hread.loadable, hread.selected, ?_, ?_, ?_, ?_, hcopied, hothers⟩
      · simp only [Work.copy]
        omega
      · simp only [Work.copy]
        omega
      · simp only [Work.copy]
        rw [show p.pFilesz.toNat - (w.run.st.toread - n)
          = p.pFilesz.toNat - w.run.st.toread + n by omega, p.addr_add, hread.curaddr]
      · simp only [Work.copy]
        omega
    · -- the segment is complete
      obtain rfl : n = w.run.st.toread := by omega
      refine .inr ⟨decide_eq_false hrest, by omega, by omega, fun q hq hload => ?_⟩
      by_cases hqp : q = p
      · subst hqp
        refine .inl ⟨by omega, ?_⟩
        simpa using hcopied
      · exact (hothers q hq hload hqp).imp_right (fun h => by omega)

theorem nextSegment_none (hphdr : w.run.st.phdr = ps)
    (hpos : w.run.st.loc + w.offset < 2 ^ 64)
    (hbetween : Between ps w.run.log (w.run.st.loc + w.offset)) (hnext : nextSegment w = none) :
    Complete ps w.run.log (w.run.st.loc + w.offset) := by
  intro p hp hload
  have hnone : searchSegment ((w.run.st.loc + w.offset) % 2 ^ 64) 0 w.run.st.phdr none = none := by
    unfold nextSegment at hnext
    split at hnext
    · assumption
    · cases hnext
  rw [hphdr, Nat.mod_eq_of_lt hpos] at hnone
  rcases hbetween p hp hload with hdone | hahead
  · exact hdone
  · have := (searchSegment_none ps hnone).2 p hp hload
    omega

theorem nextSegment_some {w' : Work} (hdis : DisjointFiles ps) (hw : w.run.Holds F mem0 ps ns)
    (hpos : w.run.st.loc + w.offset < 2 ^ 64)
    (hbetween : Between ps w.run.log (w.run.st.loc + w.offset)) (hnext : nextSegment w = some w') :
    w'.offset = w.offset ∧ w'.run.st.loc = w.run.st.loc ∧ w'.run.Holds F mem0 ps ns ∧
      ∃ p, Reading ps w'.run (w.run.st.loc + w.offset) p := by
  unfold nextSegment at hnext
  split at hnext
  · cases hnext
  next i p hsome =>
  simp only [Option.some.injEq] at hnext
  subst hnext
  rw [hw.phdr, Nat.mod_eq_of_lt hpos] at hsome
  obtain ⟨hwhere, hmin, -⟩ := searchSegment_some ps hsome
  rcases hwhere with hwhere | ⟨-, hget, hload, hahead⟩
  · cases hwhere
  have hp : p ∈ ps := List.mem_of_getElem? hget
  have hpaddr := p.pPaddr.toNat_lt
  refine ⟨rfl, rfl, ⟨hw.phdr, hw.notes, hw.mem, hw.sound⟩, p, ?_⟩
  refine ⟨hp, hload, by simp [Work.select], hload.filesz_pos, le_refl _, ?_, ?_, ?_, ?_⟩
  · simp [Work.select, Elf32Phdr.addr, Nat.mod_eq_of_lt hpaddr]
  · simp only [Work.select, Nat.mod_eq_of_lt hpos]
    omega
  · intro k hk
    simp [Work.select] at hk
  · intro q hq hqload hne
    rcases hbetween q hq hqload with hdone | hqahead
    · exact .inl hdone
    · -- `q` starts no earlier than `p`, and the two are disjoint
      have hle := hmin q hq hqload hqahead
      have hqpos := hqload.filesz_pos
      rcases hdis p hp q hq hload hqload (Ne.symm hne) with h | h
      · exact .inr h
      · unfold Elf32Phdr.fileEnd at h
        omega

/-- Between segments or in the middle of one, at position `pos`. -/
def OnTheWay (ps : List Elf32Phdr) (r : ElfRun) (pos : Nat) : Prop :=
  (r.st.segment = none ∧ Between ps r.log pos) ∨ ∃ p, Reading ps r pos p

/-- How the loop may leave a window: the image is complete, or the window is used up in the middle
    of a segment. -/
def LoopDone (ps : List Elf32Phdr) (e : LoopExit) (r : ElfRun) (pos : Nat) : Prop :=
  (e = .startKernel ∧ Complete ps r.log pos) ∨
    (e = .fellOut ∧ ∃ p, Reading ps r pos p)

/-- The loop, by induction on its turns. Each turn that does not leave has used up at least a byte of
    the window, but for a first turn that finds no segment selected. -/
theorem elf32Loop_spec (hdis : DisjointFiles ps)
    (hdata : ∀ i < len, data.bytes i = F (data.pos + i)) (hpos : data.pos + len < 2 ^ 64)
    (fuel : Nat) :
    ∀ w : Work, w.run.Holds F mem0 ps ns → w.run.st.loc = data.pos → w.offset ≤ len →
      (w.run.st.segment = none ∧ Between ps w.run.log (data.pos + w.offset) ∧
          len - w.offset + 2 ≤ fuel ∨
        (∃ p, Reading ps w.run (data.pos + w.offset) p) ∧ len - w.offset + 1 ≤ fuel) →
      ∃ w' e, elf32Loop data len fuel w = (w', e) ∧ w'.run.Holds F mem0 ps ns ∧
        w'.run.st.loc = data.pos ∧ LoopDone ps e w'.run (data.pos + len) := by
  induction fuel with
  | zero =>
    intro w _ _ _ hfuel
    rcases hfuel with ⟨-, -, hfuel⟩ | ⟨-, hfuel⟩ <;> omega
  | succ fuel ih =>
    intro w hw hloc hoff hstate
    -- the second part of the turn, from wherever the first part has led
    have hturn : ∀ w1 : Work, advance data len w = (w1, false) → w1.run.Holds F mem0 ps ns →
        w1.run.st.loc = data.pos → w1.offset ≤ len → len - w1.offset + 1 ≤ fuel →
        Between ps w1.run.log (data.pos + w1.offset) →
        ∃ w' e, elf32Loop data len (fuel + 1) w = (w', e) ∧ w'.run.Holds F mem0 ps ns ∧
          w'.run.st.loc = data.pos ∧ LoopDone ps e w'.run (data.pos + len) := by
      intro w1 hadv hw1 hloc1 hoff1 hfuel1 hbetween
      rw [← hloc1] at hbetween
      have hpos1 : w1.run.st.loc + w1.offset < 2 ^ 64 := by omega
      cases hnext : nextSegment w1 with
      | none =>
        have hall := nextSegment_none hw1.phdr hpos1 hbetween hnext
        exact ⟨w1.deselect, _, by simp only [elf32Loop, hadv, hnext],
          ⟨hw1.phdr, hw1.notes, hw1.mem, hw1.sound⟩, hloc1,
          .inl ⟨rfl, fun p hp hload => (hall p hp hload).mono (fun _ hc => hc) (by omega)⟩⟩
      | some w2 =>
        obtain ⟨hoff2, hloc2, hw2, hread⟩ := nextSegment_some hdis hw1 hpos1 hbetween hnext
        rw [hloc1, ← hoff2] at hread
        by_cases hlt : w2.offset < len
        · have hrec := ih w2 hw2 (hloc2.trans hloc1) (by omega) (.inr ⟨hread, by omega⟩)
          simpa only [elf32Loop, hadv, hnext, if_pos hlt] using hrec
        · refine ⟨_, _, by simp only [elf32Loop, hadv, hnext, if_neg hlt], hw2,
            hloc2.trans hloc1, .inr ⟨rfl, ?_⟩⟩
          rwa [show w2.offset = len by omega] at hread
    rcases hstate with ⟨hseg, hbetween, hfuel⟩ | ⟨⟨p, hread⟩, hfuel⟩
    · exact hturn w (by simp only [advance, hseg]) hw hloc hoff (by omega) hbetween
    · obtain ⟨w1, stop, hadv, hw1, hloc1, ⟨rfl, hread1⟩ | ⟨rfl, hlt, hle, hbetween⟩⟩ :=
        advance_reading hw hdata hoff hread
      · exact ⟨w1, _, by simp only [elf32Loop, hadv], hw1, hloc1.trans hloc, .inr ⟨rfl, p, hread1⟩⟩
      · exact hturn w1 hadv hw1 (hloc1.trans hloc) hle (by omega) hbetween

/-- Turning the rest of a skip into whole sectors moves the position, not the place of the next
    byte. -/
theorem Reading.settle {pos : Nat} (hread : Reading ps r (r.st.loc + pos) p) :
    Reading ps (r.settle pos) (r.settle pos).st.loc p ∧
      (r.settle pos).st.loc = r.st.loc + pos + 512 * (r.st.skip / 512) ∧
      r.st.skip / 512 < 2 ^ 32 := by
  have hbound := hread.bound
  have hend := p.fileEnd_lt
  have hhere := hread.here
  have hloc : (r.settle pos).st.loc = r.st.loc + pos + 512 * (r.st.skip / 512) := by
    simp only [ElfRun.settle]
    omega
  refine ⟨?_, hloc, by omega⟩
  refine ⟨hread.mem, hread.loadable, hread.selected, hread.toread_pos, hread.toread_le,
    hread.curaddr, ?_, hread.copied, fun q hq hload hne => ?_⟩
  · simp only [ElfRun.settle]
    omega
  · exact (hread.others q hq hload hne).imp_left (fun h => h.mono (fun _ hc => hc) (by omega))

/-- The outcomes of a call of `elf32Download` on `len` bytes from file offset `pos` on: it returns in
    the middle of a segment with the position advanced by the skip count; or it starts an image
    that is complete, or one that is not because the file ends here; or the checksum is wrong. -/
def CallDone (F : Nat → UInt8) (mem0 : Store) (ps : List Elf32Phdr) (ns : ElfNotes) (pos len : Nat)
    (eof : Bool) : Download ElfRun ElfExit → Prop
  | .returned r skip => eof = false ∧ r.Holds F mem0 ps ns ∧ r.st.loc = pos + len + 512 * skip.toNat ∧
      ∃ p, Reading ps r r.st.loc p
  | .left (.started r) => r.Holds F mem0 ps ns ∧
      (Complete ps r.log (pos + len) ∨ eof = true ∧ ∃ p ∈ ps, p.loadable ∧ pos + len < p.fileEnd)
  | .left .restarted => ns.checkIpChecksum = true
  | .left .hung => False

theorem elfStartkernel_spec {pos : Nat} {eof : Bool} (hr : r.Holds F mem0 ps ns)
    (h : Complete ps r.log (pos + len) ∨ eof = true ∧ ∃ p ∈ ps, p.loadable ∧ pos + len < p.fileEnd) :
    CallDone F mem0 ps ns pos len eof (.left (elfStartkernel r)) := by
  unfold elfStartkernel
  split
  · next hcheck =>
      rw [hr.notes] at hcheck
      exact hcheck.1
  · exact ⟨hr, h⟩

/-- **One call.** On an image whose segments have disjoint file ranges, `elf32Download` ends and has
    one of the outcomes above. -/
theorem elf32Download_spec (data : Data) (len : Nat) (eof : Bool)
    (hdis : DisjointFiles ps) (hr : r.Holds F mem0 ps ns) (hloc : r.st.loc = data.pos)
    (hdata : ∀ i < len, data.bytes i = F (data.pos + i)) (hpos : data.pos + len < 2 ^ 64)
    (hway : OnTheWay ps r data.pos) :
    CallDone F mem0 ps ns data.pos len eof (elf32Download r data len eof) := by
  have hstate : r.st.segment = none ∧ Between ps r.log (data.pos + 0) ∧ len - 0 + 2 ≤ len + 2 ∨
      (∃ p, Reading ps r (data.pos + 0) p) ∧ len - 0 + 1 ≤ len + 2 := by
    rcases hway with ⟨hseg, hbetween⟩ | hread
    · exact .inl ⟨hseg, hbetween, by omega⟩
    · exact .inr ⟨hread, by omega⟩
  obtain ⟨w, e, hloop, hw, hwloc, hdone⟩ :=
    elf32Loop_spec hdis hdata hpos (len + 2) ⟨r, 0⟩ hr hloc (Nat.zero_le _) hstate
  rcases hdone with ⟨rfl, hall⟩ | ⟨rfl, p, hread⟩
  · simp only [elf32Download, hloop]
    exact elfStartkernel_spec hw (.inl hall)
  · rw [← hwloc] at hread
    obtain ⟨hread', hloc', hsectors⟩ := hread.settle
    have hsettled : (w.run.settle len).Holds F mem0 ps ns := ⟨hw.phdr, hw.notes, hw.mem, hw.sound⟩
    simp only [elf32Download, hloop]
    cases eof with
    | true =>
      have hbound := hread.bound
      have htoread := hread.toread_pos
      exact elfStartkernel_spec hsettled
        (.inr ⟨rfl, p, hread.mem, hread.loadable, by omega⟩)
    | false =>
      refine ⟨rfl, hsettled, ?_, p, hread'⟩
      rw [hloc', hwloc, Nat.mod_eq_of_lt hsectors, UInt64.toNat_ofNat', Nat.mod_eq_of_lt (by omega)]

end OneCall

end Osloader
