import Etherboot.Osloader.ElfProbe
import Etherboot.Lib.Transition

set_option autoImplicit false

/-! # Tagged images (`arch/i386/core/tagged_loader.c`)

The first 512 bytes of a tagged image hold a header and a list of segment headers. `tagged_probe` walks the
list in the block that it was given, has each segment checked, and puts the 512 bytes where the header wants
them. `tagged_download` walks the list once more, in memory, and takes the segments' bytes from the blocks
one after the other; behind the last segment it starts the image.

The two walks are written separately. The probe takes every load address as absolute, the download goes by
the flags. `tagged_download` is a machine here that takes a header or copies a piece of a segment in a step,
since its walk through memory need not come to an end. -/

namespace Tagged

open Memory Osloader

/-! ## Headers -/

/-- The two halves of a length field count words. -/
def headerSize (length : Nat) : Nat := ((length &&& 0x0f) <<< 2) + ((length &&& 0xf0) >>> 2)

/-- `struct segheader`, without `vendortag` and `reserved`, which nothing reads. -/
structure SegHeader where
  length : UInt8
  flags : UInt8
  loadaddr : UInt32
  imglength : UInt32
  memlength : UInt32
  deriving DecidableEq, Repr

namespace SegHeader

def read (f : Store) : SegHeader := ⟨f 0, f 3, word f 4, word f 8, word f 12⟩

variable (sh : SegHeader)

def toBytes : List UInt8 :=
  [sh.length, 0, 0, sh.flags] ++ le32Bytes sh.loadaddr.toNat ++ le32Bytes sh.imglength.toNat ++
    le32Bytes sh.memlength.toNat

def size : Nat := headerSize sh.length.toNat

/-- The header is flagged as the last one. -/
def isLast : Bool := sh.flags &&& 0x04 ≠ 0

/-- The end of the segment, as the probe has it. -/
def fin : Nat := (sh.loadaddr.toNat + sh.imglength.toNat) % 2 ^ 32

end SegHeader

/-- `struct imgheader`. -/
structure ImgHeader where
  magic : UInt32
  length : UInt32
  offset : UInt16
  segment : UInt16
  execaddr : UInt32
  deriving DecidableEq, Repr

namespace ImgHeader

def read (f : Store) : ImgHeader := ⟨word f 0, word f 4, half f 8, half f 10, word f 12⟩

def toBytes (img : ImgHeader) : List UInt8 :=
  le32Bytes img.magic.toNat ++ le32Bytes img.length.toNat ++ le16Bytes img.offset.toNat ++
    le16Bytes img.segment.toNat ++ le32Bytes img.execaddr.toNat

/-- Where the header goes. -/
def linlocation (img : ImgHeader) : Nat := (img.segment.toNat <<< 4) + img.offset.toNat

/-- The offset of the first segment header. -/
def size (img : ImgHeader) : Nat := headerSize img.length.toNat

end ImgHeader

/-- What the image is started with. -/
inductive Start where
  | xstart32 (execaddr : UInt32) (linlocation : Nat)
  | xstart16 (execaddr : UInt32) (offset segment : UInt16)
  deriving DecidableEq, Repr

/-- `LINEAR_EXEC_ADDR` decides how. -/
def ImgHeader.start (img : ImgHeader) : Start :=
  if img.length &&& 0x80000000 ≠ 0 then .xstart32 img.execaddr img.linlocation
  else .xstart16 img.execaddr img.offset img.segment

/-! ## The loader -/

/-- `struct tagged_context`. -/
structure Tctx where
  img : ImgHeader
  linlocation : Nat
  last0 : Nat
  last1 : Nat
  segaddr : Nat
  seglen : Nat
  segflags : UInt8
  first : Bool
  curaddr : Nat

inductive Exit where
  | returned
  | started (how : Start)
  | restart
  deriving DecidableEq, Repr

/-- The loader in a call of `tagged_download` (`exit = none`), or behind one. `memsize` is from `meminfo`.
    The source does not keep the last three: the ranges that the probe had checked, the copies made, and how
    many bytes of the file have been consumed. -/
structure Run where
  tctx : Tctx
  mem : Store
  memsize : UInt32
  data : Store
  len : Nat
  eof : Bool
  exit : Option Exit
  checked : List (Nat × Nat)
  log : List Copy
  consumed : Nat

/-! ## The probe -/

inductive Probe where
  | declined
  | dead
  | accepted (s : Run)

/-- The image was accepted, and the loader is as `p` wants it. -/
def Probe.accepts (p : Run → Bool) : Probe → Bool
  | .accepted s => p s
  | _ => false

theorem Probe.exists_of_accepts {p : Run → Bool} {probe : Probe} (h : probe.accepts p = true) :
    ∃ s, probe = .accepted s ∧ p s = true := by
  cases probe with
  | accepted s => exact ⟨s, rfl, h⟩
  | _ => cases h

/-- The segment header at an offset in the block. -/
def headerAt (data : Store) (o : Nat) : SegHeader := SegHeader.read (fun k => data (o + k))

/-- The walk over the segment headers, from the offset `o` on: memory, the ranges that have been checked and
    the header at which the walk ends, or `none` if a segment was refused. -/
def verifySegments (m : Machine) (data : Store) :
    Nat → Nat → Store → List (Nat × Nat) → Option (Store × List (Nat × Nat) × SegHeader)
  | 0, o, mem, checked => some (mem, checked, headerAt data o)
  | n + 1, o, mem, checked =>
    let sh := headerAt data o
    if 0 < sh.length ∧ o < 512 then
      match prepSegment m mem sh.loadaddr.toNat sh.fin sh.fin with
      | .error _ => none
      | .ok mem =>
        let checked := checked ++ [(sh.loadaddr.toNat, sh.fin)]
        if sh.isLast then some (mem, checked, sh)
        else verifySegments m data n (o + sh.size) mem checked
    else some (mem, checked, sh)

/-- `tagged_probe`. A header has at least four bytes, so 128 turns are enough for the walk. -/
def taggedProbe (m : Machine) (memsize : UInt32) (mem : Store) (b : Block) : Probe :=
  if le32 b.data 0 ≠ 0x1B031336 then .declined
  else if b.len < 512 then .dead
  else
    let img := ImgHeader.read b.data
    let lin := img.linlocation
    match prepSegment m mem lin (lin + 512) (lin + 512) with
    | .error _ => .dead
    | .ok mem =>
      match verifySegments m b.data 128 img.size mem [(lin, lin + 512)] with
      | none => .dead
      | some (mem, checked, sh) =>
        if sh.isLast then
          .accepted
            { tctx := ⟨img, lin, 0, 0, lin + img.size, 0, 0, true, 0⟩, mem := memcpy mem lin b.data 512,
              memsize := memsize, data := b.data, len := 0, eof := false, exit := some .returned,
              checked := checked, log := [], consumed := 0 }
        else .dead

/-! ## The download -/

/-- The address that the flags give a segment. -/
def SegHeader.address (sh : SegHeader) (t : Tctx) (memsize : UInt32) : Nat :=
  if sh.flags &&& 0x03 = 0 then sh.loadaddr.toNat
  else if sh.flags &&& 0x03 = 0x01 then (t.last1 + sh.loadaddr.toNat) % 2 ^ 32
  else if sh.flags &&& 0x03 = 0x02 then wsub (memsize.toNat * 1024 + 0x100000) sh.loadaddr.toNat
  else wsub t.last0 sh.loadaddr.toNat

namespace Run

variable (s : Run)

/-- The next segment header, in memory. -/
def header : SegHeader := SegHeader.read (fun k => s.mem ((s.tctx.segaddr + k) % 2 ^ 32))

/-- The turn of the inner loop. -/
def takeHeader : Run :=
  let sh := s.header
  let addr := sh.address s.tctx s.memsize
  { s with
    tctx := { s.tctx with
      seglen := sh.imglength.toNat, curaddr := addr, last0 := addr,
      last1 := (addr + sh.memlength.toNat) % 2 ^ 32, segflags := sh.flags,
      segaddr := (s.tctx.segaddr + sh.size) % 2 ^ 32 }
    exit := if sh.length = 0 then some .restart else none }

/-- How much of the segment the block has. -/
def piece : Nat := if s.tctx.seglen > s.len then s.len else s.tctx.seglen

def copy : Run :=
  { s with
    tctx := { s.tctx with
      seglen := s.tctx.seglen - s.piece, curaddr := (s.tctx.curaddr + s.piece) % 2 ^ 32 }
    mem := memcpy s.mem s.tctx.curaddr s.data s.piece
    data := fun k => s.data (s.piece + k)
    len := s.len - s.piece
    log := s.log ++ [⟨s.tctx.curaddr, s.consumed, s.piece⟩]
    consumed := s.consumed + s.piece }

/-- The begin of the outer loop. -/
def top : Run := { s with eof := if s.len = 0 then false else s.eof }

/-- The outer loop with a turn of the inner one, if there is one. -/
def step : Run :=
  let s := s.top
  if s.tctx.seglen = 0 then
    if s.tctx.segflags &&& 0x04 ≠ 0 then { s with exit := some (.started s.tctx.img.start) }
    else s.takeHeader
  else if s.len = 0 ∧ s.eof = false then { s with exit := some .returned }
  else s.copy

/-- The begin of `tagged_download`: the first 512 bytes are skipped. -/
def enter (b : Block) (eof : Bool) : Run :=
  if s.tctx.first then
    let s := { s with tctx := { s.tctx with first := false }, consumed := s.consumed + min 512 b.len }
    if 512 < b.len then
      { s with data := fun k => b.data (512 + k), len := b.len - 512, eof := eof, exit := none }
    else { s with exit := some .returned }
  else { s with data := b.data, len := b.len, eof := eof, exit := none }

end Run

/-- The machine goes on, or the next block comes. -/
inductive Event where
  | tick
  | block (b : Block) (eof : Bool)

namespace Run

def turn (s : Run) : Event → Run
  | .tick => if s.exit = none then s.step else s
  | .block b eof => if s.exit = some .returned then s.enter b eof else s

def run (s : Run) (es : List Event) : Run := es.foldl turn s

theorem run_append (s : Run) (es es' : List Event) : s.run (es ++ es') = (s.run es).run es' :=
  List.foldl_append ..

end Run

/-- **What a step does.** The file's end has no part in it. -/
theorem Run.step_cases (s : Run) :
    (s.tctx.seglen = 0 ∧ s.tctx.segflags &&& 0x04 ≠ 0 ∧
      s.step = { s.top with exit := some (.started s.tctx.img.start) }) ∨
    (s.tctx.seglen = 0 ∧ s.tctx.segflags &&& 0x04 = 0 ∧ s.step = s.top.takeHeader) ∨
    (s.tctx.seglen ≠ 0 ∧ s.len = 0 ∧ s.step = { s.top with exit := some .returned }) ∨
    (s.tctx.seglen ≠ 0 ∧ s.len ≠ 0 ∧ s.step = s.top.copy) := by
  have hstep : s.step = if s.tctx.seglen = 0 then
      if s.tctx.segflags &&& 0x04 ≠ 0 then { s.top with exit := some (.started s.tctx.img.start) }
      else s.top.takeHeader
    else if s.len = 0 ∧ s.top.eof = false then { s.top with exit := some .returned }
    else s.top.copy := rfl
  by_cases hseg : s.tctx.seglen = 0
  · rw [if_pos hseg] at hstep
    by_cases hlast : s.tctx.segflags &&& 0x04 ≠ 0
    · rw [if_pos hlast] at hstep
      exact Or.inl ⟨hseg, hlast, hstep⟩
    · rw [if_neg hlast] at hstep
      exact Or.inr (Or.inl ⟨hseg, not_not.mp hlast, hstep⟩)
  · rw [if_neg hseg] at hstep
    by_cases hlen : s.len = 0
    · have heof : s.top.eof = false := if_pos hlen
      rw [if_pos ⟨hlen, heof⟩] at hstep
      exact Or.inr (Or.inr (Or.inl ⟨hseg, hlen, hstep⟩))
    · rw [if_neg (fun h => hlen h.1)] at hstep
      exact Or.inr (Or.inr (Or.inr ⟨hseg, hlen, hstep⟩))

/-! ## What the probe leaves -/

section Probe

variable {m : Machine}

theorem headerSize_pos {c : UInt8} (h : c ≠ 0) : 4 ≤ headerSize c.toNat := by
  have hall : ∀ n < 256, n ≠ 0 → 4 ≤ headerSize n := by decide +kernel
  exact hall c.toNat c.toNat_lt (fun hzero => h (UInt8.toNat_inj.mp hzero))

theorem prepSegment_same {mem mem' : Store} {start fin : Nat}
    (h : prepSegment m mem start fin fin = .ok mem') : mem' = mem := by
  obtain ⟨-, -, -, -, hmem⟩ := prepSegment_ok h
  rw [hmem, if_neg (Nat.lt_irrefl fin)]

/-- The range has passed the checks. -/
def Passed (m : Machine) (r : Nat × Nat) : Prop := ∃ mem mem', prepSegment m mem r.1 r.2 r.2 = .ok mem'

theorem passed_append {mem mem' : Store} {checked : List (Nat × Nat)} {start fin : Nat}
    (hpassed : ∀ r ∈ checked, Passed m r) (hok : prepSegment m mem start fin fin = .ok mem') :
    ∀ r ∈ checked ++ [(start, fin)], Passed m r := by
  intro r hr
  rcases List.mem_append.mp hr with hold | hnew
  · exact hpassed r hold
  · rw [List.mem_singleton.mp hnew]
    exact ⟨_, _, hok⟩

theorem verifySegments_spec {data mem mem' : Store} {n o : Nat} {checked checked' : List (Nat × Nat)}
    {sh : SegHeader} (hpassed : ∀ r ∈ checked, Passed m r)
    (h : verifySegments m data n o mem checked = some (mem', checked', sh)) :
    mem' = mem ∧ checked ⊆ checked' ∧ ∀ r ∈ checked', Passed m r := by
  induction n generalizing o mem checked with
  | zero =>
    obtain ⟨rfl, rfl, -⟩ : mem = mem' ∧ checked = checked' ∧ headerAt data o = sh := by
      simpa only [verifySegments, Option.some.injEq, Prod.mk.injEq] using h
    exact ⟨rfl, List.Subset.refl _, hpassed⟩
  | succ n ih =>
    rw [verifySegments] at h
    split at h
    · split at h
      · cases h
      · next hok =>
        have hsame := prepSegment_same hok
        have hnow := passed_append hpassed hok
        split at h
        · obtain ⟨rfl, rfl, -⟩ := by simpa only [Option.some.injEq, Prod.mk.injEq] using h
          exact ⟨hsame, List.subset_append_left .., hnow⟩
        · obtain ⟨hmem, hsub, hlater⟩ := ih hnow h
          exact ⟨hmem.trans hsame, List.Subset.trans (List.subset_append_left ..) hsub, hlater⟩
    · obtain ⟨rfl, rfl, -⟩ := by simpa only [Option.some.injEq, Prod.mk.injEq] using h
      exact ⟨rfl, List.Subset.refl _, hpassed⟩

/-- The segment headers from the offset `o` on, up to the last one. They lie in the first 512 bytes, and none
    has the length zero. -/
inductive Headers (data : Store) : Nat → List SegHeader → Prop
  | last {o : Nat} (hin : o + 16 ≤ 512) (hlength : (headerAt data o).length ≠ 0)
      (hlast : (headerAt data o).isLast = true) : Headers data o [headerAt data o]
  | more {o : Nat} {hs : List SegHeader} (hin : o + 16 ≤ 512) (hlength : (headerAt data o).length ≠ 0)
      (hmore : (headerAt data o).isLast = false) (h : Headers data (o + (headerAt data o).size) hs) :
      Headers data o (headerAt data o :: hs)

theorem verifySegments_succ {data mem : Store} {n o : Nat} {checked : List (Nat × Nat)}
    {r : Store × List (Nat × Nat) × SegHeader} (hlength : (headerAt data o).length ≠ 0) (ho : o < 512)
    (h : verifySegments m data (n + 1) o mem checked = some r) :
    ∃ mem', let checked' := checked ++ [((headerAt data o).loadaddr.toNat, (headerAt data o).fin)]
      prepSegment m mem (headerAt data o).loadaddr.toNat (headerAt data o).fin (headerAt data o).fin = .ok mem' ∧
      (if (headerAt data o).isLast then some (mem', checked', headerAt data o)
        else verifySegments m data n (o + (headerAt data o).size) mem' checked') = some r := by
  rw [verifySegments, if_pos ⟨UInt8.pos_iff_ne_zero.mpr hlength, ho⟩] at h
  cases hok : prepSegment m mem (headerAt data o).loadaddr.toNat (headerAt data o).fin (headerAt data o).fin with
  | error e =>
    rw [hok] at h
    cases h
  | ok mem' =>
    rw [hok] at h
    exact ⟨mem', rfl, h⟩

/-- The walk does not stop before the last header: a turn takes it at least four bytes on. -/
theorem Headers.checked {data mem mem' : Store} {n o : Nat} {checked checked' : List (Nat × Nat)}
    {sh : SegHeader} {hs : List SegHeader} (hhs : Headers data o hs) (hn : 512 ≤ o + 4 * n)
    (hpassed : ∀ r ∈ checked, Passed m r)
    (h : verifySegments m data n o mem checked = some (mem', checked', sh)) :
    ∀ g ∈ hs, (g.loadaddr.toNat, g.fin) ∈ checked' := by
  induction hhs generalizing n mem checked with
  | last hin hlength hlast =>
    obtain ⟨n, rfl⟩ := Nat.exists_eq_add_one_of_ne_zero (show n ≠ 0 by omega)
    obtain ⟨mem₁, -, hturn⟩ := verifySegments_succ hlength (by omega) h
    rw [if_pos hlast] at hturn
    intro g hg
    have hall : _ = checked' := congrArg (fun r => r.2.1) (Option.some.inj hturn)
    rw [List.mem_singleton.mp hg, ← hall]
    exact List.mem_append_right _ (List.mem_singleton_self _)
  | @more o hs hin hlength hmore hrest ih =>
    obtain ⟨n, rfl⟩ := Nat.exists_eq_add_one_of_ne_zero (show n ≠ 0 by omega)
    have hsize : 4 ≤ (headerAt data o).size := headerSize_pos hlength
    obtain ⟨mem₁, hok, hturn⟩ := verifySegments_succ hlength (by omega) h
    rw [if_neg (by rw [hmore]; exact Bool.false_ne_true)] at hturn
    have hnow := passed_append hpassed hok
    intro g hg
    rcases List.mem_cons.mp hg with rfl | hg
    · obtain ⟨-, hsub, -⟩ := verifySegments_spec hnow hturn
      exact hsub (List.mem_append_right _ (List.mem_singleton_self _))
    · exact ih (by omega) hnow hturn g hg

/-- The loader for a tagged image at the begin. -/
structure Begins (m : Machine) (memsize : UInt32) (mem : Store) (b : Block) (s : Run) : Prop where
  len : 512 ≤ b.len
  tctx : s.tctx = ⟨ImgHeader.read b.data, (ImgHeader.read b.data).linlocation, 0, 0,
    (ImgHeader.read b.data).linlocation + (ImgHeader.read b.data).size, 0, 0, true, 0⟩
  mem : s.mem = memcpy mem (ImgHeader.read b.data).linlocation b.data 512
  exit : s.exit = some .returned
  log : s.log = []
  consumed : s.consumed = 0
  memsize : s.memsize = memsize
  checked : ∀ r ∈ s.checked, Passed m r
  headers : ∀ hs, Headers b.data (ImgHeader.read b.data).size hs →
    ∀ h ∈ hs, (h.loadaddr.toNat, h.fin) ∈ s.checked

theorem taggedProbe_accepted {memsize : UInt32} {mem : Store} {b : Block} {s : Run}
    (h : taggedProbe m memsize mem b = .accepted s) : Begins m memsize mem b s := by
  rw [taggedProbe] at h
  split at h
  · cases h
  split at h
  · cases h
  next hlen =>
  simp only [] at h
  split at h
  · cases h
  next mem₁ hok =>
  split at h
  · cases h
  next mem₂ checked sh hwalk =>
  split at h
  swap
  · cases h
  have hpassed := passed_append (fun r hr => absurd hr List.not_mem_nil) hok
  obtain ⟨hmem, -, hchecked⟩ := verifySegments_spec hpassed hwalk
  obtain rfl := Probe.accepted.inj h
  refine ⟨Nat.le_of_not_lt hlen, rfl, ?_, rfl, rfl, rfl, rfl, hchecked,
    fun hs hheaders => hheaders.checked (by omega) hpassed hwalk⟩
  rw [hmem, prepSegment_same hok]

end Probe

end Tagged
