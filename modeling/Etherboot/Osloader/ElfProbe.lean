import Etherboot.Net.Checksum
import Etherboot.Osloader.Segment

set_option autoImplicit false

/-! # Recognising an ELF32 image (`core/elf_loader.c`)

`elf32Probe` reads the ELF header and the program header table out of the first block of a file,
moves a relocatable image to a free place, scans the notes for a checksum, and puts every `PT_LOAD`
segment through `prepSegment`. It is the build without `IMAGE_FREEBSD` and `IMAGE_MULTIBOOT`.

The scan of the notes follows lengths found in the image and need not end, so the functions that
contain it take `fuel` and return `none` when it runs out. -/

namespace Osloader

open Memory

/-- A block of a file as `load_block` gets it: its bytes, the memory around them by offset from the
    data pointer, and that pointer. A block shares a 32-bit address space with Etherboot itself,
    which leaves it at least 512 bytes short of filling it. -/
structure Block where
  bytes : List UInt8
  around : Nat → UInt8
  addr : Nat
  short : bytes.length + 512 ≤ 2 ^ 32

def Block.len (b : Block) : Nat := b.bytes.length

/-- The byte at an offset from the data pointer. -/
def Block.data (b : Block) : Store := fun i => (b.bytes[i]?).getD (b.around i)

/-! ## Headers -/

structure Elf32Ehdr where
  eIdent : List UInt8
  eType : UInt16
  eMachine : UInt16
  eVersion : UInt32
  eEntry : UInt32
  ePhoff : UInt32
  eShoff : UInt32
  eFlags : UInt32
  eEhsize : UInt16
  ePhentsize : UInt16
  ePhnum : UInt16
  eShentsize : UInt16
  eShnum : UInt16
  eShstrndx : UInt16
  deriving DecidableEq, Repr

structure Elf32Phdr where
  pType : UInt32
  pOffset : UInt32
  pVaddr : UInt32
  pPaddr : UInt32
  pFilesz : UInt32
  pMemsz : UInt32
  pFlags : UInt32
  pAlign : UInt32
  deriving DecidableEq, Repr

def half (f : Store) (p : Nat) : UInt16 := UInt16.ofNat (le16 f p)

def word (f : Store) (p : Nat) : UInt32 := UInt32.ofNat (le32 f p)

def sizeofEhdr : Nat := 52

def sizeofPhdr : Nat := 32

def Elf32Ehdr.read (f : Store) : Elf32Ehdr where
  eIdent := f.slice 0 16
  eType := half f 16
  eMachine := half f 18
  eVersion := word f 20
  eEntry := word f 24
  ePhoff := word f 28
  eShoff := word f 32
  eFlags := word f 36
  eEhsize := half f 40
  ePhentsize := half f 42
  ePhnum := half f 44
  eShentsize := half f 46
  eShnum := half f 48
  eShstrndx := half f 50

def Elf32Phdr.read (f : Store) : Elf32Phdr where
  pType := word f 0
  pOffset := word f 4
  pVaddr := word f 8
  pPaddr := word f 12
  pFilesz := word f 16
  pMemsz := word f 20
  pFlags := word f 24
  pAlign := word f 28

variable {f g : Store}

theorem half_congr {n p : Nat} (h : ∀ i < n, f i = g i) (hp : p + 2 ≤ n) : half f p = half g p := by
  rw [half, half, le16_congr (fun k hk => h (p + k) (by omega))]

theorem word_congr {n p : Nat} (h : ∀ i < n, f i = g i) (hp : p + 4 ≤ n) : word f p = word g p := by
  rw [word, word, le32_congr (fun k hk => h (p + k) (by omega))]

theorem Elf32Ehdr.read_congr (h : ∀ i < sizeofEhdr, f i = g i) : Elf32Ehdr.read f = Elf32Ehdr.read g := by
  have hident : f.slice 0 16 = g.slice 0 16 :=
    Store.slice_congr (fun k hk => h (0 + k) (by simp only [sizeofEhdr]; omega))
  simp only [Elf32Ehdr.read, hident]
  congr 1 <;> first
    | exact half_congr h (by decide)
    | exact word_congr h (by decide)

theorem Elf32Phdr.read_congr (h : ∀ i < sizeofPhdr, f i = g i) : Elf32Phdr.read f = Elf32Phdr.read g := by
  unfold Elf32Phdr.read
  congr 1 <;> exact word_congr h (by decide)

variable (m : Machine) (e : Elf32Ehdr)

def Elf32Ehdr.toBytes : List UInt8 :=
  e.eIdent ++ le16Bytes e.eType.toNat ++ le16Bytes e.eMachine.toNat ++ le32Bytes e.eVersion.toNat ++
    le32Bytes e.eEntry.toNat ++ le32Bytes e.ePhoff.toNat ++ le32Bytes e.eShoff.toNat ++
    le32Bytes e.eFlags.toNat ++ le16Bytes e.eEhsize.toNat ++ le16Bytes e.ePhentsize.toNat ++
    le16Bytes e.ePhnum.toNat ++ le16Bytes e.eShentsize.toNat ++ le16Bytes e.eShnum.toNat ++
    le16Bytes e.eShstrndx.toNat

def Elf32Phdr.toBytes (p : Elf32Phdr) : List UInt8 :=
  le32Bytes p.pType.toNat ++ le32Bytes p.pOffset.toNat ++ le32Bytes p.pVaddr.toNat ++
    le32Bytes p.pPaddr.toNat ++ le32Bytes p.pFilesz.toNat ++ le32Bytes p.pMemsz.toNat ++
    le32Bytes p.pFlags.toNat ++ le32Bytes p.pAlign.toNat

def etExec : UInt16 := 2
def etDyn : UInt16 := 3
def em386 : UInt16 := 3
def em486 : UInt16 := 6
def emX8664 : UInt16 := 62
def ptLoad : UInt32 := 1
def ptNote : UInt32 := 4

/-- `ELF_CHECK_ARCH` on the i386; `e_entry <= 0xffffffff` always holds of a 32-bit entry point. -/
def elfCheckArch : Bool :=
  decide (e.eMachine = em386) || decide (e.eMachine = em486) ||
    (m.em64 && decide (e.eMachine = emX8664))

/-- The identification test of `elf32_probe`: magic, class, byte order, version, type and sizes. -/
def elf32Ident : Bool :=
  decide (e.eIdent.take 7 = [0x7f, 0x45, 0x4c, 0x46, 1, 1, 1]) &&
    (decide (e.eType = etExec) || decide (e.eType = etDyn)) &&
    decide (e.eVersion = 1) && decide (e.eEhsize = 52) && decide (e.ePhentsize = 32) &&
    elfCheckArch m e

/-- The program header table, copied from `data + e_phoff`; the sum wraps with the address space. -/
def phdrTable (b : Block) : List Elf32Phdr :=
  let e := Elf32Ehdr.read b.data
  (List.range e.ePhnum.toNat).map (fun i =>
    Elf32Phdr.read (fun k => b.data ((e.ePhoff.toNat + sizeofPhdr * i + k) % 2 ^ 32)))

/-! ## Notes -/

/-- The checksum part of `struct elf_state`. -/
structure ElfNotes where
  checkIpChecksum : Bool
  ipChecksum : Nat
  ipChecksumOffset : Nat
  deriving DecidableEq, Repr

/-- The byte at an address, found by its distance from the block. -/
def Block.byteAt (b : Block) : Store := fun a => b.data (above b.addr a)

/-- `(n + 3) & ~3`. -/
def align4 (n : Nat) : Nat := (n + 3) % 2 ^ 32 / 4 * 4

def elfNoteBoot : List UInt8 := [0x45, 0x4c, 0x46, 0x42, 0x6f, 0x6f, 0x74, 0]

def einProgramChecksum : Nat := 3

/-- The loop of `process_elf_notes`, `note` and `end_` being addresses. Of a recognised note only the
    checksum has an effect; program name and version are printed. -/
def processElfNotes (b : Block) : Nat → ElfNotes → Nat → Nat → Option ElfNotes
  | 0, _, _, _ => none
  | fuel + 1, ns, note, end_ =>
    if note < end_ then
      let nNamesz := le32 b.byteAt note
      let nDescsz := le32 b.byteAt (note + 4)
      let nType := le32 b.byteAt (note + 8)
      let nName := (note + 12) % 2 ^ 32
      let nDesc := (nName + align4 nNamesz) % 2 ^ 32
      let next := (nDesc + align4 nDescsz) % 2 ^ 32
      if next > end_ then some ns
      else
        let ns :=
          if nNamesz = 8 ∧ b.byteAt.slice nName 8 = elfNoteBoot ∧ nType = einProgramChecksum then
            { checkIpChecksum := true, ipChecksum := le16 b.byteAt nDesc,
              ipChecksumOffset := above b.addr nDesc }
          else ns
        processElfNotes b fuel ns next end_
    else some ns

/-- The pass over the `PT_NOTE` headers; each scan starts by forgetting what the last one found. -/
def loadNotes (b : Block) (fuel : Nat) : List Elf32Phdr → ElfNotes → Option ElfNotes
  | [], ns => some ns
  | p :: ps, ns =>
    if p.pType ≠ ptNote then loadNotes b fuel ps ns
    else if (p.pOffset.toNat + p.pFilesz.toNat) % 2 ^ 32 > b.len then loadNotes b fuel ps ns
    else
      let note := (b.addr + p.pOffset.toNat) % 2 ^ 32
      match processElfNotes b fuel { ns with checkIpChecksum := false } note
          ((note + p.pFilesz.toNat) % 2 ^ 32) with
      | some ns => loadNotes b fuel ps ns
      | none => none

/-- `elf_prep_segment`: a checksum note that is itself loaded must come out as 0. -/
def elfPrepSegment (ns : ElfNotes) (istart iend : Nat) : ElfNotes :=
  if ns.checkIpChecksum ∧ istart ≤ ns.ipChecksumOffset ∧ iend > ns.ipChecksumOffset then
    { ns with ipChecksum := 0 }
  else ns

/-! ## Relocation -/

inductive ProbeError where
  | headerOutsideFirstBlock
  | programHeaderTooBig
  | alignmentNotPowerOfTwo
  | baseAddressNotAvailable
  | segment (e : SegmentError)
  deriving DecidableEq, Repr

/-- The extent `(min, max, align)` of the `PT_LOAD` segments. -/
def loadSpan : List Elf32Phdr → Nat × Nat × Nat → Nat × Nat × Nat
  | [], s => s
  | p :: ps, (min, max, align) =>
    if p.pType ≠ ptLoad then loadSpan ps (min, max, align)
    else
      let val := p.pPaddr.toNat
      let min := if val < min then val else min
      let val := (val + p.pMemsz.toNat) % 2 ^ 32
      let max := if val > max then val else max
      let align := if p.pAlign.toNat > align then p.pAlign.toNat else align
      loadSpan ps (min, max, align)

/-- The `ET_DYN` branch: shift every segment and the entry point to a free place. -/
def relocate (phdr : List Elf32Phdr) :
    Except ProbeError (Elf32Ehdr × List Elf32Phdr) :=
  if e.eType ≠ etDyn then .ok (e, phdr)
  else
    let (min, max, align) := loadSpan phdr (2 ^ 32 - 1, 0, 1)
    if align &&& (align - 1) ≠ 0 then .error .alignmentNotPowerOfTwo
    else
      let baseAddr := findSegment m ((max + (2 ^ 32 - min)) % 2 ^ 32) align
      if baseAddr = ulongMax then .error .baseAddressNotAvailable
      else
        let delta := UInt32.ofNat (baseAddr + (2 ^ 32 - min))
        .ok ({ e with eEntry := e.eEntry + delta },
          phdr.map (fun p => { p with pPaddr := p.pPaddr + delta }))

/-! ## The probe -/

/-- `struct elf_state`; `segment` is `none` where the source has -1. -/
structure ElfState where
  ehdr : Elf32Ehdr
  phdr : List Elf32Phdr
  curaddr : Nat
  segment : Option Nat
  loc : Nat
  skip : Nat
  toread : Nat
  notes : ElfNotes
  deriving DecidableEq, Repr

/-- What `elf32_probe` returns: 0, `dead_download`, or `elf32_download` with its static state and the
    memory as the probe leaves it. -/
inductive Probe where
  | notElf
  | dead (why : ProbeError)
  | download (st : ElfState) (mem : Store)

/-- `start`, `mid` and `end` of a segment, added up in 32 bits. -/
def Elf32Phdr.mid (p : Elf32Phdr) : Nat := (p.pPaddr.toNat + p.pFilesz.toNat) % 2 ^ 32

def Elf32Phdr.fin (p : Elf32Phdr) : Nat := (p.pPaddr.toNat + p.pMemsz.toNat) % 2 ^ 32

/-- The pass that prepares the `PT_LOAD` segments. -/
def prepLoads (m : Machine) : List Elf32Phdr → ElfNotes → Store →
    Except SegmentError (ElfNotes × Store)
  | [], ns, mem => .ok (ns, mem)
  | p :: ps, ns, mem =>
    if p.pType ≠ ptLoad then prepLoads m ps ns mem
    else
      match prepSegment m mem p.pPaddr.toNat p.mid p.fin with
      | .error e => .error e
      | .ok mem =>
        let istart := p.pOffset.toNat
        let iend := (istart + p.pFilesz.toNat) % 2 ^ 32
        prepLoads m ps (elfPrepSegment ns istart iend) mem

def elf32Probe (fuel : Nat) (mem : Store) (b : Block) : Option Probe :=
  if b.len < sizeofEhdr then some .notElf
  else
    let e := Elf32Ehdr.read b.data
    if elf32Ident m e = false then some .notElf
    else
      let phdrSize := e.ePhnum.toNat * e.ePhentsize.toNat
      if (e.ePhoff.toNat + phdrSize) % 2 ^ 32 > b.len then
        some (.dead .headerOutsideFirstBlock)
      else if phdrSize > 1024 then some (.dead .programHeaderTooBig)
      else
        match relocate m e (phdrTable b) with
        | .error why => some (.dead why)
        | .ok (e, phdr) =>
          match loadNotes b fuel phdr ⟨false, 0, 0⟩ with
          | none => none
          | some ns =>
            match prepLoads m phdr ns mem with
            | .error why => some (.dead (.segment why))
            | .ok (ns, mem) =>
              some (.download
                { ehdr := e, phdr := phdr, curaddr := 0, segment := none, loc := 0, skip := 0,
                  toread := 0, notes := ns } mem)

end Osloader
