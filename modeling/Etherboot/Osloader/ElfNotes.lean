import Etherboot.Lib.Footprint
import Etherboot.Osloader.ElfSafety

set_option autoImplicit false

/-! # The notes of an ELF image (`process_elf_notes` in `core/elf_loader.c`)

The notes lie one behind the other in a segment of the file, each with the sizes of its name and of its
description. `scanNotes` is the loop over them with everything it keeps; its checksum part is
`processElfNotes`. `noteReads` lists the addresses that a round looks at.

All additions are of 32 bits, those of the program header table as well, and every one can overflow.
`elf32Probe_inside_iff` says exactly when the probe ends and looks at nothing outside of the block. -/

namespace Osloader

open Memory Block

/-! ## A note -/

namespace Block

section Fields

variable (b : Block) (note : Nat)

def nNamesz : Nat := le32 b.byteAt note

def nDescsz : Nat := le32 b.byteAt (note + 4)

def nType : Nat := le32 b.byteAt (note + 8)

def nName : Nat := (note + 12) % 2 ^ 32

def nDesc : Nat := (nName note + align4 (b.nNamesz note)) % 2 ^ 32

def next : Nat := (b.nDesc note + align4 (b.nDescsz note)) % 2 ^ 32

/-- The last byte of the description, `n_desc[n_descsz - 1]`. -/
def descLast : Nat := (b.nDesc note + b.nDescsz note + (2 ^ 32 - 1)) % 2 ^ 32

/-- The note has the name `ELFBoot`. -/
def IsBoot : Prop := b.nNamesz note = 8 ∧ b.byteAt.slice (nName note) 8 = elfNoteBoot
  deriving Decidable

end Fields

end Block

def einProgramName : Nat := 1

def einProgramVersion : Nat := 2

/-- The variables of `process_elf_notes`: the checksum part of `estate`, and the strings to be printed. -/
structure NoteScan where
  notes : ElfNotes
  program : Option Nat
  version : Option Nat
  deriving DecidableEq, Repr

variable (b : Block)

/-- What a note that fits into the segment changes. -/
def NoteScan.take (note : Nat) (s : NoteScan) : NoteScan :=
  if ¬ b.IsBoot note then s
  else if b.nType note = einProgramName then
    if b.byteAt (b.descLast note) = 0 then { s with program := some (b.nDesc note) } else s
  else if b.nType note = einProgramVersion then
    if b.byteAt (b.descLast note) = 0 then { s with version := some (b.nDesc note) } else s
  else if b.nType note = einProgramChecksum then
    { s with notes := ⟨true, le16 b.byteAt (b.nDesc note), above b.addr (b.nDesc note)⟩ }
  else s

/-- The loop of `process_elf_notes`. -/
def scanNotes (b : Block) : Nat → NoteScan → Nat → Nat → Option NoteScan
  | 0, _, _, _ => none
  | fuel + 1, s, note, end_ =>
    if note < end_ then
      if b.next note > end_ then some s else scanNotes b fuel (s.take b note) (b.next note) end_
    else some s

/-- Its variables before the first round. -/
def NoteScan.begin (ns : ElfNotes) : NoteScan := ⟨{ ns with checkIpChecksum := false }, none, none⟩

/-- `n` addresses from `a` on. -/
def addresses (a n : Nat) : List Nat := (List.range n).map fun i => (a + i) % 2 ^ 32

/-- The addresses that are read in a round: the two sizes, and of a note that fits and has a name of eight
    bytes as much of the name as `memcmp` compares, then the type and what belongs to it. -/
def Block.noteReads (note end_ : Nat) : List Nat :=
  addresses note 8 ++
    if b.next note > end_ ∨ b.nNamesz note ≠ 8 then []
    else
      addresses (Block.nName note) (b.byteAt.compared (Block.nName note) elfNoteBoot) ++
        if ¬ b.IsBoot note then []
        else
          addresses (note + 8) 4 ++
            if b.nType note = einProgramName ∨ b.nType note = einProgramVersion then [b.descLast note]
            else if b.nType note = einProgramChecksum then addresses (b.nDesc note) 2
            else []

open NoteScan

theorem NoteScan.take_notes (note : Nat) (s : NoteScan) :
    (s.take b note).notes =
      if b.nNamesz note = 8 ∧ b.byteAt.slice (nName note) 8 = elfNoteBoot ∧
          b.nType note = einProgramChecksum then
        ⟨true, le16 b.byteAt (b.nDesc note), above b.addr (b.nDesc note)⟩
      else s.notes := by
  unfold take
  by_cases hboot : b.IsBoot note
  · rw [if_neg (not_not.mpr hboot)]
    simp only [hboot.1, hboot.2, true_and]
    by_cases hname : b.nType note = einProgramName
    · have hne : ¬ b.nType note = einProgramChecksum := by
        rw [hname]
        decide
      rw [if_pos hname, if_neg hne]
      split <;> rfl
    rw [if_neg hname]
    by_cases hversion : b.nType note = einProgramVersion
    · have hne : ¬ b.nType note = einProgramChecksum := by
        rw [hversion]
        decide
      rw [if_pos hversion, if_neg hne]
      split <;> rfl
    rw [if_neg hversion]
    split <;> rfl
  · rw [if_pos hboot, if_neg fun h => hboot ⟨h.1, h.2.1⟩]

/-- The checksum part of the scan is the function that the probe uses. -/
theorem scanNotes_notes (end_ fuel : Nat) : ∀ (s : NoteScan) (note : Nat),
    (scanNotes b fuel s note end_).map notes = processElfNotes b fuel s.notes note end_ := by
  induction fuel with
  | zero => intro s note; rfl
  | succ fuel ih =>
    intro s note
    rw [scanNotes, processElfNotes]
    by_cases hlt : note < end_
    · rw [if_pos hlt, if_pos hlt]
      change _ = if b.next note > end_ then some s.notes else _
      by_cases hnext : b.next note > end_
      · rw [if_pos hnext, if_pos hnext]
        rfl
      · rw [if_neg hnext, if_neg hnext, ih]
        exact congrArg (fun ns => processElfNotes b fuel ns (b.next note) end_) (s.take_notes b note)
    · rw [if_neg hlt, if_neg hlt]
      rfl

/-! ## What it means to stay inside -/

/-- An address of the block. -/
def Block.Inside (a : Nat) : Prop := b.addr ≤ a ∧ a < b.addr + b.len

/-- The positions of `note` at the start of a round or at the end of the loop. -/
inductive Visits (b : Block) (start end_ : Nat) : Nat → Prop
  | start : Visits b start end_ start
  | next {note : Nat} (h : Visits b start end_ note) (hlt : note < end_) (hfits : b.next note ≤ end_) :
      Visits b start end_ (b.next note)

/-- The characters from an address up to the first zero, as `printf` reads them, are in the block. -/
def Block.HasString (a : Nat) : Prop :=
  ∃ n, (∀ i ≤ n, b.Inside ((a + i) % 2 ^ 32)) ∧ b.byteAt ((a + n) % 2 ^ 32) = 0

/-- A call of `process_elf_notes` returns, every round that goes on moves forward, and every byte that is looked
    at is in the block. -/
structure ScanInside (start end_ : Nat) : Prop where
  reads : ∀ note, Visits b start end_ note → note < end_ → ∀ a ∈ b.noteReads note end_, b.Inside a
  forward : ∀ note, Visits b start end_ note → note < end_ → b.next note ≤ end_ → note < b.next note
  strings : ∀ fuel ns s p v, scanNotes b fuel (.begin ns) start end_ = some s → s.program = some p →
    s.version = some v → b.HasString p ∧ b.HasString v
  returns : ∀ ns, ∃ fuel, (scanNotes b fuel (.begin ns) start end_).isSome = true

/-- How many bytes of a note are used. -/
def Block.noteUse (note end_ : Nat) : Nat :=
  if b.next note > end_ ∨ b.nNamesz note ≠ 8 then 8
  else if b.IsBoot note ∧ b.nType note = einProgramChecksum then 22
  else 12 + b.byteAt.compared (Block.nName note) elfNoteBoot

/-- The size of a note, added up in 32 bits. -/
def Block.noteSize (note : Nat) : Nat :=
  (12 + align4 (b.nNamesz note) + align4 (b.nDescsz note)) % 2 ^ 32

/-- Every note that is come to has the bytes that are used in the block, and its size neither adds up to zero nor
    leads beyond the address space. If a name and a version are printed, there is a zero behind their start in
    the block. -/
structure NotesFit (start end_ : Nat) : Prop where
  use : ∀ note, Visits b start end_ note → note < end_ →
    b.addr ≤ note ∧ note + b.noteUse note end_ ≤ b.addr + b.len
  size : ∀ note, Visits b start end_ note → note < end_ → 0 < b.noteSize note ∧ note + b.noteSize note < 2 ^ 32
  ends : ∀ fuel ns s p v, scanNotes b fuel (.begin ns) start end_ = some s → s.program = some p →
    s.version = some v → (∃ n, p + n < b.addr + b.len ∧ b.byteAt (p + n) = 0) ∧
      ∃ n, v + n < b.addr + b.len ∧ b.byteAt (v + n) = 0

section Rounds

variable {b : Block} {note end_ : Nat}

theorem align4_eight : align4 8 = 8 := rfl

theorem addresses_inside (hobject : b.addr + b.len < 2 ^ 32) {a n : Nat} (ha : a < 2 ^ 32) (hn : 0 < n) :
    (∀ x ∈ addresses a n, b.Inside x) ↔ b.addr ≤ a ∧ a + n ≤ b.addr + b.len := by
  unfold addresses Inside
  simp only [List.mem_map, List.mem_range, forall_exists_index, and_imp, forall_apply_eq_imp_iff₂]
  constructor
  · intro h
    have hfirst := h 0 hn
    rw [Nat.add_zero, Nat.mod_eq_of_lt ha] at hfirst
    refine ⟨hfirst.1, ?_⟩
    by_contra hgt
    -- the address behind the block is among them
    have hend := h (b.addr + b.len - a) (by omega)
    omega
  · rintro ⟨hlo, hhi⟩ i hi
    omega

theorem nDesc_eq (hsize : b.nNamesz note = 8) (hlt : note + 20 < 2 ^ 32) : b.nDesc note = note + 20 := by
  unfold nDesc nName
  rw [hsize, align4_eight]
  omega

section

variable (hobject : b.addr + b.len < 2 ^ 32) (hend : end_ ≤ b.addr + b.len)

include hobject hend

theorem descLast_inside (hlo : b.addr ≤ note) (hhi : note + 20 ≤ b.addr + b.len) (hsize : b.nNamesz note = 8)
    (hlt : note < b.next note) (hle : b.next note ≤ end_) : b.Inside (b.descLast note) := by
  have hdesc := nDesc_eq hsize (Nat.lt_of_le_of_lt hhi hobject)
  unfold Block.next align4 at hlt hle
  unfold Inside descLast
  omega

/-- What is read of a boot note behind its name. -/
theorem bootReads_inside (hlo : b.addr ≤ note) (hhi : note + 20 ≤ b.addr + b.len) (hsize : b.nNamesz note = 8)
    (hlt : note < b.next note) (hle : b.next note ≤ end_) :
    (∀ a ∈ addresses (note + 8) 4 ++
        if b.nType note = einProgramName ∨ b.nType note = einProgramVersion then [b.descLast note]
        else if b.nType note = einProgramChecksum then addresses (b.nDesc note) 2 else [], b.Inside a) ↔
      (b.nType note = einProgramChecksum → note + 22 ≤ b.addr + b.len) := by
  have htype : ∀ a ∈ addresses (note + 8) 4, b.Inside a :=
    (addresses_inside hobject (by omega) (by decide)).mpr ⟨by omega, by omega⟩
  rw [List.forall_mem_append, and_iff_right htype]
  by_cases hstring : b.nType note = einProgramName ∨ b.nType note = einProgramVersion
  · have hne : ¬ b.nType note = einProgramChecksum := by
      rcases hstring with h | h <;> rw [h] <;> decide
    rw [if_pos hstring, List.forall_mem_singleton]
    simp only [hne, false_imp_iff, iff_true]
    exact descLast_inside hobject hend hlo hhi hsize hlt hle
  rw [if_neg hstring]
  by_cases hchecksum : b.nType note = einProgramChecksum
  · rw [if_pos hchecksum, nDesc_eq hsize (by omega), addresses_inside hobject (by omega) (by decide)]
    omega
  · simp [hchecksum]

/-- A round stays in the block exactly if the bytes that are used are in it. -/
theorem noteReads_inside (hnote : note < end_)
    (hlt : b.next note ≤ end_ → note < b.next note) :
    (∀ a ∈ b.noteReads note end_, b.Inside a) ↔
      b.addr ≤ note ∧ note + b.noteUse note end_ ≤ b.addr + b.len := by
  unfold noteReads noteUse
  rw [List.forall_mem_append, addresses_inside hobject (by omega) (by decide)]
  by_cases hout : b.next note > end_ ∨ b.nNamesz note ≠ 8
  · rw [if_pos hout, if_pos hout]
    simp
  rw [if_neg hout, if_neg hout]
  have hfits : b.next note ≤ end_ := by omega
  have hsize : b.nNamesz note = 8 := by omega
  have hcompared : 0 < b.byteAt.compared (nName note) elfNoteBoot :=
    b.byteAt.compared_pos (nName note) (by decide)
  have hlow : nName note < 2 ^ 32 := Nat.mod_lt _ (by decide)
  rw [List.forall_mem_append, addresses_inside hobject hlow hcompared]
  by_cases hwrap : note + 12 < 2 ^ 32
  · have heq : nName note = note + 12 := Nat.mod_eq_of_lt hwrap
    by_cases hboot : b.IsBoot note
    · have hall : b.byteAt.compared (nName note) elfNoteBoot = 8 :=
        Store.compared_of_has (show b.byteAt.Has (nName note) elfNoteBoot from hboot.2)
      rw [if_neg (not_not.mpr hboot), hall, heq]
      simp only [hboot, true_and]
      by_cases hroom : b.addr ≤ note ∧ note + 20 ≤ b.addr + b.len
      · rw [bootReads_inside hobject hend hroom.1 hroom.2 hsize (hlt hfits) hfits]
        split <;> omega
      · constructor
        · rintro ⟨hsizes, hname, -⟩
          omega
        · rintro ⟨hlo, huse⟩
          split at huse <;> omega
    · rw [if_pos hboot, if_neg fun h => hboot h.1, heq]
      simp only [List.not_mem_nil, false_imp_iff, implies_true, and_true]
      omega
  · -- the block would have to fill the address space
    have hshort := b.short
    have hlen : b.len = b.bytes.length := rfl
    have hbehind : nName note = note + 12 - 2 ^ 32 := by
      unfold nName
      omega
    constructor
    · rintro ⟨hsizes, hname, -⟩
      omega
    · rintro ⟨-, huse⟩
      split at huse <;> omega

end

/-- A round moves forward exactly if the size of the note is a proper one. -/
theorem forward_iff (hnote : note < end_) (hend : end_ < 2 ^ 32) :
    (b.next note ≤ end_ → note < b.next note) ↔ 0 < b.noteSize note ∧ note + b.noteSize note < 2 ^ 32 := by
  have hnext : b.next note = (note + b.noteSize note) % 2 ^ 32 := by
    unfold Block.next nDesc nName noteSize
    omega
  have hlt : b.noteSize note < 2 ^ 32 := Nat.mod_lt _ (by decide)
  omega

end Rounds

/-! ## The loop -/

section Scan

variable {b : Block} {start end_ : Nat}

theorem scanNotes_returns
    (hforward : ∀ note, Visits b start end_ note → note < end_ → b.next note ≤ end_ → note < b.next note)
    (n : Nat) : ∀ note, Visits b start end_ note → end_ - note < n → ∀ s,
      (scanNotes b n s note end_).isSome = true := by
  induction n with
  | zero => intro note _ hlt; exact by cases hlt
  | succ n ih =>
    intro note hvisit hlt s
    rw [scanNotes]
    by_cases hnote : note < end_
    · rw [if_pos hnote]
      by_cases hnext : b.next note > end_
      · rw [if_pos hnext]
        rfl
      · rw [if_neg hnext]
        have hmove := hforward note hvisit hnote (by omega)
        exact ih (b.next note) (hvisit.next hnote (by omega)) (by omega) _
    · rw [if_neg hnote]
      rfl

/-- Where a string that is printed comes from. -/
def FromNote (b : Block) (start end_ p : Nat) : Prop :=
  ∃ note, Visits b start end_ note ∧ note < end_ ∧ b.next note ≤ end_ ∧ b.IsBoot note ∧
    (b.nType note = einProgramName ∨ b.nType note = einProgramVersion) ∧ p = b.nDesc note

/-- The strings in the variables come from notes. -/
structure NoteScan.FromNotes (b : Block) (start end_ : Nat) (s : NoteScan) : Prop where
  program : ∀ p, s.program = some p → FromNote b start end_ p
  version : ∀ v, s.version = some v → FromNote b start end_ v

theorem NoteScan.FromNotes.take {s : NoteScan} (h : s.FromNotes b start end_) {note : Nat}
    (hvisit : Visits b start end_ note) (hnote : note < end_) (hnext : b.next note ≤ end_) :
    (s.take b note).FromNotes b start end_ := by
  unfold NoteScan.take
  by_cases hboot : b.IsBoot note
  · have hfrom (htype : b.nType note = einProgramName ∨ b.nType note = einProgramVersion) :
        FromNote b start end_ (b.nDesc note) := ⟨note, hvisit, hnote, hnext, hboot, htype, rfl⟩
    split_ifs with hname _ hversion _ _
    · exact ⟨fun p hp => Option.some.inj hp ▸ hfrom (Or.inl hname), h.version⟩
    · exact h
    · exact ⟨h.program, fun v hv => Option.some.inj hv ▸ hfrom (Or.inr hversion)⟩
    · exact h
    · exact ⟨h.program, h.version⟩
    · exact h
  · rw [if_pos hboot]
    exact h

theorem scanNotes_from (fuel : Nat) : ∀ (s s' : NoteScan) (note : Nat), s.FromNotes b start end_ →
    Visits b start end_ note → scanNotes b fuel s note end_ = some s' → s'.FromNotes b start end_ := by
  induction fuel with
  | zero => intro s s' note _ _ h; cases h
  | succ fuel ih =>
    intro s s' note hs hvisit h
    rw [scanNotes] at h
    split at h
    · next hnote =>
      split at h
      · exact Option.some.inj h ▸ hs
      · next hnext =>
        exact ih _ s' _ (hs.take hvisit hnote (by omega)) (hvisit.next hnote (by omega)) h
    · exact Option.some.inj h ▸ hs

/-- A string that begins in the block is in it exactly if there is a zero behind its start. -/
theorem hasString_iff (hobject : b.addr + b.len < 2 ^ 32) {p : Nat} (hp : p < 2 ^ 32) (hlo : b.addr ≤ p) :
    b.HasString p ↔ ∃ n, p + n < b.addr + b.len ∧ b.byteAt (p + n) = 0 := by
  have hinside (n : Nat) : (∀ i ≤ n, b.Inside ((p + i) % 2 ^ 32)) ↔ p + n < b.addr + b.len := by
    have haddr := @addresses_inside b hobject p (n + 1) hp (Nat.succ_pos n)
    simp only [addresses, List.mem_map, List.mem_range, forall_exists_index, and_imp,
      forall_apply_eq_imp_iff₂, Nat.lt_succ_iff] at haddr
    rw [haddr]
    omega
  constructor
  · rintro ⟨n, hall, hzero⟩
    have hn := (hinside n).mp hall
    rw [Nat.mod_eq_of_lt (by omega)] at hzero
    exact ⟨n, hn, hzero⟩
  · rintro ⟨n, hn, hzero⟩
    refine ⟨n, (hinside n).mpr hn, ?_⟩
    rw [Nat.mod_eq_of_lt (by omega)]
    exact hzero

/-- The description of a boot note whose bytes are in the block. -/
theorem FromNote.behind (hobject : b.addr + b.len < 2 ^ 32) {p : Nat} (h : FromNote b start end_ p)
    (huse : ∀ note, Visits b start end_ note → note < end_ →
      b.addr ≤ note ∧ note + b.noteUse note end_ ≤ b.addr + b.len) : p < 2 ^ 32 ∧ b.addr ≤ p := by
  obtain ⟨note, hvisit, hnote, hnext, hboot, -, rfl⟩ := h
  obtain ⟨hlo, hhi⟩ := huse note hvisit hnote
  have hall : b.byteAt.compared (nName note) elfNoteBoot = 8 :=
    Store.compared_of_has (show b.byteAt.Has (nName note) elfNoteBoot from hboot.2)
  have huse : 20 ≤ b.noteUse note end_ := by
    unfold noteUse
    rw [if_neg (not_or.mpr ⟨by omega, not_not.mpr hboot.1⟩), hall]
    split <;> omega
  rw [nDesc_eq hboot.1 (by omega)]
  omega

theorem NoteScan.begin_from (ns : ElfNotes) : (begin ns).FromNotes b start end_ := ⟨nofun, nofun⟩

theorem scanInside_iff (hobject : b.addr + b.len < 2 ^ 32) (hend : end_ ≤ b.addr + b.len) :
    ScanInside b start end_ ↔ NotesFit b start end_ := by
  have hlt : end_ < 2 ^ 32 := Nat.lt_of_le_of_lt hend hobject
  constructor
  · intro h
    have huse : ∀ note, Visits b start end_ note → note < end_ →
        b.addr ≤ note ∧ note + b.noteUse note end_ ≤ b.addr + b.len := by
      intro note hvisit hnote
      exact (noteReads_inside hobject hend hnote (h.forward note hvisit hnote)).mp (h.reads note hvisit hnote)
    refine ⟨huse, ?_, ?_⟩
    · intro note hvisit hnote
      exact (forward_iff hnote hlt).mp (h.forward note hvisit hnote)
    · intro fuel ns s p v hscan hp hv
      have hfrom := scanNotes_from fuel _ s start (begin_from ns) .start hscan
      obtain ⟨hp32, hplo⟩ := (hfrom.program p hp).behind hobject huse
      obtain ⟨hv32, hvlo⟩ := (hfrom.version v hv).behind hobject huse
      rw [← hasString_iff hobject hp32 hplo, ← hasString_iff hobject hv32 hvlo]
      exact h.strings fuel ns s p v hscan hp hv
  · intro h
    have hforward : ∀ note, Visits b start end_ note → note < end_ → b.next note ≤ end_ →
        note < b.next note := by
      intro note hvisit hnote
      exact (forward_iff hnote hlt).mpr (h.size note hvisit hnote)
    refine ⟨?_, hforward, ?_, ?_⟩
    · intro note hvisit hnote
      exact (noteReads_inside hobject hend hnote (hforward note hvisit hnote)).mpr (h.use note hvisit hnote)
    · intro fuel ns s p v hscan hp hv
      have hfrom := scanNotes_from fuel _ s start (begin_from ns) .start hscan
      obtain ⟨hp32, hplo⟩ := (hfrom.program p hp).behind hobject h.use
      obtain ⟨hv32, hvlo⟩ := (hfrom.version v hv).behind hobject h.use
      rw [hasString_iff hobject hp32 hplo, hasString_iff hobject hv32 hvlo]
      exact h.ends fuel ns s p v hscan hp hv
    · intro ns
      exact ⟨end_ - start + 1, scanNotes_returns hforward _ start .start (Nat.lt_succ_self _) _⟩

end Scan

/-! ## The probe -/

/-- The size of the program header table. -/
def Block.phdrSize : Nat :=
  (Elf32Ehdr.read b.data).ePhnum.toNat * (Elf32Ehdr.read b.data).ePhentsize.toNat

/-- The size of `estate.p`. -/
def sizeofDummy : Nat := 1024

/-- The probe comes to copying the program header table. -/
structure Copies (m : Machine) (b : Block) : Prop where
  header : sizeofEhdr ≤ b.len
  ident : elf32Ident m (Elf32Ehdr.read b.data) = true
  inBlock : ((Elf32Ehdr.read b.data).ePhoff.toNat + b.phdrSize) % 2 ^ 32 ≤ b.len
  small : b.phdrSize ≤ 1024

/-- The probe comes to the notes of a program header. -/
structure Scans (m : Machine) (b : Block) (p : Elf32Phdr) : Prop where
  copies : Copies m b
  relocated : ∃ e phdr, relocate m (Elf32Ehdr.read b.data) (phdrTable b) = .ok (e, phdr)
  mem : p ∈ phdrTable b
  type : p.pType = ptNote
  inBlock : (p.pOffset.toNat + p.pFilesz.toNat) % 2 ^ 32 ≤ b.len

/-- Where the notes of a header start and end. -/
def Elf32Phdr.noteStart (p : Elf32Phdr) : Nat := (b.addr + p.pOffset.toNat) % 2 ^ 32

def Elf32Phdr.noteEnd (p : Elf32Phdr) : Nat := (p.noteStart b + p.pFilesz.toNat) % 2 ^ 32

/-- The probe returns; the program headers that are copied fit and are in the block; and so is everything that
    is looked at of the notes. -/
structure ProbeInside (m : Machine) (b : Block) : Prop where
  returns : ∀ mem, ∃ fuel, (elf32Probe m fuel mem b).isSome = true
  fits : Copies m b → b.phdrSize ≤ sizeofDummy
  copied : Copies m b → ∀ i < b.phdrSize, ((Elf32Ehdr.read b.data).ePhoff.toNat + i) % 2 ^ 32 < b.len
  notes : ∀ p, Scans m b p → ScanInside b (p.noteStart b) (p.noteEnd b)

section Probe

variable {m : Machine} {b : Block}

theorem Scans.noteEnd_le (hobject : b.addr + b.len < 2 ^ 32) {p : Elf32Phdr} (h : Scans m b p) :
    p.noteEnd b ≤ b.addr + b.len := by
  have hin := h.inBlock
  have heq : p.noteEnd b = (b.addr + (p.pOffset.toNat + p.pFilesz.toNat) % 2 ^ 32) % 2 ^ 32 := by
    unfold Elf32Phdr.noteEnd Elf32Phdr.noteStart
    omega
  omega

/-- The table is copied from inside of the block unless its end overflows. -/
theorem copied_iff (h : Copies m b) :
    (∀ i < b.phdrSize, ((Elf32Ehdr.read b.data).ePhoff.toNat + i) % 2 ^ 32 < b.len) ↔
      (b.phdrSize = 0 ∨ (Elf32Ehdr.read b.data).ePhoff.toNat + b.phdrSize < 2 ^ 32) := by
  have hin := h.inBlock
  have hshort := b.short
  have hlen : b.len = b.bytes.length := rfl
  have hoff := (Elf32Ehdr.read b.data).ePhoff.toNat_lt
  generalize (Elf32Ehdr.read b.data).ePhoff.toNat = off at *
  constructor
  · intro hall
    by_contra hwrap
    -- the last byte of the address space would be in the block
    have := hall (2 ^ 32 - 1 - off) (by omega)
    omega
  · intro hno i hi
    omega

theorem relocate_fields {e e' : Elf32Ehdr} {phdr phdr' : List Elf32Phdr}
    (h : relocate m e phdr = .ok (e', phdr')) :
    ∀ q ∈ phdr', ∃ p ∈ phdr, q.pType = p.pType ∧ q.pOffset = p.pOffset ∧ q.pFilesz = p.pFilesz := by
  intro q hq
  unfold relocate at h
  split at h
  · simp only [Except.ok.injEq, Prod.mk.injEq] at h
    exact ⟨q, h.2 ▸ hq, rfl, rfl, rfl⟩
  · simp only at h
    split_ifs at h
    simp only [Except.ok.injEq, Prod.mk.injEq] at h
    rw [← h.2] at hq
    obtain ⟨p, hp, rfl⟩ := List.mem_map.mp hq
    exact ⟨p, hp, rfl, rfl, rfl⟩

theorem loadNotes_returns {fuel : Nat} (ps : List Elf32Phdr)
    (h : ∀ p ∈ ps, p.pType = ptNote → (p.pOffset.toNat + p.pFilesz.toNat) % 2 ^ 32 ≤ b.len →
      ∀ ns, (scanNotes b fuel (.begin ns) (p.noteStart b) (p.noteEnd b)).isSome = true) :
    ∀ ns, (loadNotes b fuel ps ns).isSome = true := by
  induction ps with
  | nil => intro ns; rfl
  | cons p ps ih =>
    intro ns
    have ih := ih fun q hq => h q (List.mem_cons_of_mem _ hq)
    rw [loadNotes]
    by_cases htype : p.pType = ptNote
    · rw [if_neg (not_not.mpr htype)]
      by_cases hin : (p.pOffset.toNat + p.pFilesz.toNat) % 2 ^ 32 > b.len
      · rw [if_pos hin]
        exact ih ns
      · rw [if_neg hin]
        obtain ⟨s, hs⟩ := Option.isSome_iff_exists.mp (h p (List.mem_cons_self ..) htype (by omega) ns)
        have hnotes := scanNotes_notes b (p.noteEnd b) fuel (.begin ns) (p.noteStart b)
        rw [hs] at hnotes
        have hscan : processElfNotes b fuel { ns with checkIpChecksum := false }
            ((b.addr + p.pOffset.toNat) % 2 ^ 32)
            (((b.addr + p.pOffset.toNat) % 2 ^ 32 + p.pFilesz.toNat) % 2 ^ 32) = some s.notes := hnotes.symm
        simp only [hscan]
        exact ih s.notes
    · rw [if_pos htype]
      exact ih ns

theorem elf32Probe_returns
    (hforward : ∀ p, Scans m b p → ∀ note, Visits b (p.noteStart b) (p.noteEnd b) note → note < p.noteEnd b →
      b.next note ≤ p.noteEnd b → note < b.next note) (mem : Store) :
    ∃ fuel, (elf32Probe m fuel mem b).isSome = true := by
  obtain ⟨fuel, hfuel⟩ : ∃ n, 2 ^ 32 ≤ n := ⟨_, Nat.le_refl _⟩
  refine ⟨fuel, ?_⟩
  unfold elf32Probe
  simp only
  split
  · rfl
  next hlen =>
  split
  · rfl
  next hident =>
  split
  · rfl
  next hin =>
  split
  · rfl
  next hsmall =>
  split
  · rfl
  next e phdr hreloc =>
  have hcopies : Copies m b :=
    ⟨by omega, by simpa using hident, by unfold phdrSize; omega, by unfold phdrSize; omega⟩
  have hnotes : (loadNotes b fuel phdr ⟨false, 0, 0⟩).isSome = true := by
    apply loadNotes_returns
    intro q hq htype hq' ns
    obtain ⟨p, hp, hptype, hpoff, hpsize⟩ := relocate_fields hreloc q hq
    have hscans : Scans m b p :=
      ⟨hcopies, ⟨e, phdr, hreloc⟩, hp, hptype ▸ htype, by rw [← hpoff, ← hpsize]; exact hq'⟩
    have hplace : q.noteStart b = p.noteStart b ∧ q.noteEnd b = p.noteEnd b := by
      unfold Elf32Phdr.noteEnd Elf32Phdr.noteStart
      rw [hpoff, hpsize]
      exact ⟨rfl, rfl⟩
    have hlt : p.noteEnd b < 2 ^ 32 := Nat.mod_lt _ (by decide)
    rw [hplace.1, hplace.2]
    exact scanNotes_returns (hforward p hscans) fuel _ .start (by omega) _
  split
  · next hnone =>
    rw [hnone] at hnotes
    cases hnotes
  · split <;> rfl

end Probe

/-- **Hostile headers.** The probe returns and stays in the block, and the loop over the notes always moves
    forward, if and only if the end of the program header table does not overflow and the notes fit. -/
theorem elf32Probe_inside_iff (m : Machine) (b : Block) (hobject : b.addr + b.len < 2 ^ 32) :
    ProbeInside m b ↔
      (Copies m b → b.phdrSize = 0 ∨ (Elf32Ehdr.read b.data).ePhoff.toNat + b.phdrSize < 2 ^ 32) ∧
      ∀ p, Scans m b p → NotesFit b (p.noteStart b) (p.noteEnd b) := by
  constructor
  · intro h
    refine ⟨fun hcopies => (copied_iff hcopies).mp (h.copied hcopies), ?_⟩
    intro p hscans
    exact (scanInside_iff hobject (hscans.noteEnd_le hobject)).mp (h.notes p hscans)
  · rintro ⟨htable, hfit⟩
    have hnotes : ∀ p, Scans m b p → ScanInside b (p.noteStart b) (p.noteEnd b) := by
      intro p hscans
      exact (scanInside_iff hobject (hscans.noteEnd_le hobject)).mpr (hfit p hscans)
    exact {
      returns := elf32Probe_returns fun p hscans => (hnotes p hscans).forward
      fits := fun hcopies => hcopies.small
      copied := fun hcopies => (copied_iff hcopies).mpr (htable hcopies)
      notes := hnotes }

/-! ## Two images -/

/-- An image with one segment of 24 bytes of notes. -/
def noteSegment : Elf32Phdr := ⟨ptNote, 84, 0, 0, 24, 24, 0, 0⟩

def notedImage (note : List UInt8) (h : note.length = 24) : Block where
  bytes := (execHeader 1).toBytes ++ noteSegment.toBytes ++ note
  around := fun _ => 0
  addr := 0x30000
  short := by
    rw [List.length_append, h]
    decide

/-- A checksum. -/
def checksumNote : List UInt8 :=
  le32Bytes 8 ++ le32Bytes 2 ++ le32Bytes einProgramChecksum ++ elfNoteBoot ++ [0x12, 0x34, 0, 0]

theorem checksumNote_inside : ProbeInside smallMachine (notedImage checksumNote rfl) := by
  refine (elf32Probe_inside_iff smallMachine (notedImage checksumNote rfl) (by decide)).mpr ⟨?_, ?_⟩
  · intro _
    exact Or.inr (by decide)
  intro p hscans
  have htable : phdrTable (notedImage checksumNote rfl) = [noteSegment] := by decide
  have hp := hscans.mem
  rw [htable, List.mem_singleton] at hp
  subst hp
  -- behind the only note the segment ends
  have honly : ∀ note, Visits (notedImage checksumNote rfl) 0x30054 0x3006c note → note < 0x3006c →
      note = 0x30054 := by
    intro note hvisit
    induction hvisit with
    | start => intro _; rfl
    | next _ hlt _ ih =>
      intro hnext
      rw [ih hlt] at hnext
      exact absurd hnext (by decide +kernel)
  refine ⟨?_, ?_, ?_⟩
  · intro note hvisit hlt
    rw [honly note hvisit hlt]
    decide +kernel
  · intro note hvisit hlt
    rw [honly note hvisit hlt]
    decide +kernel
  · intro fuel ns s p v hscan hp hv
    obtain ⟨note, hvisit, hlt, -, -, htype, -⟩ :=
      (scanNotes_from fuel _ s _ (begin_from ns) .start hscan).program p hp
    rw [honly note hvisit hlt] at htype
    exact absurd htype (by decide +kernel)

/-- A name whose size takes the loop back to its note. -/
def loopingNote : List UInt8 := le32Bytes 0xfffffff4 ++ le32Bytes 0 ++ List.replicate 16 0

theorem loopingNote_not_inside : ¬ ProbeInside smallMachine (notedImage loopingNote rfl) := by
  intro h
  have hscans : Scans smallMachine (notedImage loopingNote rfl) noteSegment :=
    ⟨⟨by decide, by decide, by decide, by decide⟩, ⟨_, _, rfl⟩, by decide, rfl, by decide⟩
  exact absurd ((h.notes noteSegment hscans).forward _ .start (by decide +kernel) (by decide +kernel))
    (by decide +kernel)

end Osloader
