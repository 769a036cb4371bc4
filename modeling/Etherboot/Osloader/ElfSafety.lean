import Etherboot.Osloader.ElfProbe

set_option autoImplicit false

/-! # What an accepted ELF32 image may overwrite

`elf32Probe` hands `prepSegment` the sums `p_paddr + p_filesz` and `p_paddr + p_memsz` taken modulo
`2^32`, and `prepSegment` compares them pairwise. Where neither sum wraps the comparisons mean what
they say and an accepted segment is safe to zero and fill. Where one wraps they do not, and images
are accepted that overwrite anything, Etherboot included. `elf32Probe_safe_iff` draws the line. -/

namespace Osloader

open Memory

/-! ## Inverting the probe -/

variable {m : Machine} {fuel : Nat} {mem mem' : Store} {b : Block} {st : ElfState} {p : Elf32Phdr}

theorem elf32Probe_download (h : elf32Probe m fuel mem b = some (.download st mem')) :
    ∃ e ns, relocate m (Elf32Ehdr.read b.data) (phdrTable b) = .ok (e, st.phdr) ∧
      loadNotes b fuel st.phdr ⟨false, 0, 0⟩ = some ns ∧
      prepLoads m st.phdr ns mem = .ok (st.notes, mem') ∧
      st = { ehdr := e, phdr := st.phdr, curaddr := 0, segment := none, loc := 0, skip := 0,
             toread := 0, notes := st.notes } := by
  unfold elf32Probe at h
  simp only at h
  split at h
  · cases h
  split at h
  · cases h
  split at h
  · cases h
  split at h
  · cases h
  split at h
  · cases h
  next e phdr hreloc =>
  split at h
  · cases h
  next ns hnotes =>
  split at h
  · cases h
  next ns' mem1 hprep =>
  simp only [Option.some.injEq, Probe.download.injEq] at h
  obtain ⟨hst, hmem⟩ := h
  subst hst hmem
  exact ⟨e, ns, hreloc, hnotes, hprep, rfl⟩

theorem relocate_exec {e e' : Elf32Ehdr} {phdr phdr' : List Elf32Phdr}
    (hexec : e.eType = etExec) (h : relocate m e phdr = .ok (e', phdr')) :
    e' = e ∧ phdr' = phdr := by
  unfold relocate at h
  rw [if_pos (by rw [hexec]; decide)] at h
  simp only [Except.ok.injEq, Prod.mk.injEq] at h
  exact ⟨h.1.symm, h.2.symm⟩

/-- Every `PT_LOAD` segment of an accepted image went through `prepSegment`. -/
theorem prepLoads_ok {ps : List Elf32Phdr} :
    ∀ {ns ns' : ElfNotes} {mem mem' : Store}, prepLoads m ps ns mem = .ok (ns', mem') →
      ∀ p ∈ ps, p.pType = ptLoad →
        ∃ mem1 mem2, prepSegment m mem1 p.pPaddr.toNat p.mid p.fin = .ok mem2 := by
  induction ps with
  | nil => intro ns ns' mem mem' _ p hp; exact by cases hp
  | cons q qs ih =>
    intro ns ns' mem mem' h p hp hload
    rw [prepLoads] at h
    by_cases hq : q.pType = ptLoad
    · rw [if_neg (by simp [hq])] at h
      split at h
      · cases h
      · next mem1 hprep =>
          rcases List.mem_cons.mp hp with rfl | hp'
          · exact ⟨mem, mem1, hprep⟩
          · exact ih h p hp' hload
    · rw [if_pos hq] at h
      rcases List.mem_cons.mp hp with rfl | hp'
      · exact absurd hload hq
      · exact ih h p hp' hload

theorem elf32Probe_exec (h : elf32Probe m fuel mem b = some (.download st mem'))
    (hexec : (Elf32Ehdr.read b.data).eType = etExec) : st.phdr = phdrTable b := by
  obtain ⟨e, ns, hreloc, -⟩ := elf32Probe_download h
  exact (relocate_exec hexec hreloc).2

theorem elf32Probe_prepared (h : elf32Probe m fuel mem b = some (.download st mem')) :
    ∀ p ∈ st.phdr, p.pType = ptLoad →
      ∃ mem1 mem2, prepSegment m mem1 p.pPaddr.toNat p.mid p.fin = .ok mem2 := by
  obtain ⟨e, ns, -, -, hprep, -⟩ := elf32Probe_download h
  exact prepLoads_ok hprep

/-! ## Safe segments -/

/-- The addresses `[lo, hi)` of which none belongs to the segment. -/
def Elf32Phdr.avoids (p : Elf32Phdr) (lo hi : UInt32) : Prop :=
  ∀ k < p.pMemsz.toNat, ¬ (lo.toNat ≤ p.pPaddr.toNat + k ∧ p.pPaddr.toNat + k < hi.toNat)

/-- The segment lies in one RAM region of the memory map. -/
def Elf32Phdr.inRam (p : Elf32Phdr) (m : Machine) : Prop :=
  ∃ r ∈ m.map, r.type = e820Ram ∧
    ∀ k < p.pMemsz.toNat, r.addr.toNat ≤ p.pPaddr.toNat + k ∧
      p.pPaddr.toNat + k < r.addr.toNat + r.size.toNat

/-- What loading a segment requires: the file part is no longer than the memory part, and the
    addresses `p_paddr + k` with `k < p_memsz` do not wrap, are RAM, and miss Etherboot and its
    heap. -/
structure Elf32Phdr.Safe (m : Machine) (p : Elf32Phdr) : Prop where
  filesz_le : p.pFilesz.toNat ≤ p.pMemsz.toNat
  no_wrap : p.pPaddr.toNat + p.pMemsz.toNat ≤ 2 ^ 32
  ram : p.inRam m
  etherboot : p.avoids m.text m.end_
  heap : p.avoids m.heapPtr m.heapBot

/-- Neither sum the probe forms wraps. -/
def Elf32Phdr.unwrapped (p : Elf32Phdr) : Prop :=
  p.pPaddr.toNat + p.pFilesz.toNat < 2 ^ 32 ∧ p.pPaddr.toNat + p.pMemsz.toNat < 2 ^ 32

/-- The segment fills memory to the very end of the address space, where `end` wraps to 0, and the
    tests `prepSegment` did not make would have come out well: a RAM region reaches from `p_paddr` to
    `2^32`, and Etherboot and the heap end below `p_paddr`. -/
def Elf32Phdr.safeAtTop (m : Machine) (p : Elf32Phdr) : Prop :=
  p.pPaddr.toNat + p.pMemsz.toNat = 2 ^ 32 ∧
    (∃ r ∈ m.map, r.type = e820Ram ∧ r.addr.toNat ≤ p.pPaddr.toNat ∧
      2 ^ 32 ≤ r.addr.toNat + r.size.toNat) ∧
    (m.text < m.end_ → m.end_.toNat ≤ p.pPaddr.toNat) ∧
    (m.heapPtr < m.heapBot → m.heapBot.toNat ≤ p.pPaddr.toNat)

theorem avoids_of_overlaps {lo hi : UInt32}
    (h : overlaps p.pPaddr.toNat (p.pPaddr.toNat + p.pMemsz.toNat) lo hi = false) :
    p.avoids lo hi := by
  rw [overlaps_eq_false] at h
  intro k hk
  omega

theorem inRam_of_fits {r : E820Entry} (hr : r ∈ m.map)
    (h : fits p.pPaddr.toNat (p.pPaddr.toNat + p.pMemsz.toNat) r = true) : p.inRam m := by
  rw [fits_eq_true] at h
  obtain ⟨htype, hlo, hhi⟩ := h
  refine ⟨r, hr, htype, fun k hk => ?_⟩
  omega

/-- A segment that ends at `2^32` misses `[lo, hi)` exactly when that range is empty or ends below
    the segment. -/
theorem avoids_top_iff {lo hi : UInt32} (htop : p.pPaddr.toNat + p.pMemsz.toNat = 2 ^ 32) :
    p.avoids lo hi ↔ (lo < hi → hi.toNat ≤ p.pPaddr.toNat) := by
  have hhi := hi.toNat_lt
  constructor
  · intro h hlt
    rw [UInt32.lt_iff_toNat_lt] at hlt
    by_contra hgt
    -- the last address of the range, or of its part above `p_paddr`, lies in both
    have hk := h (hi.toNat - 1 - p.pPaddr.toNat) (by omega)
    omega
  · intro h k hk
    rw [UInt32.lt_iff_toNat_lt] at h
    omega

theorem inRam_top_iff (htop : p.pPaddr.toNat + p.pMemsz.toNat = 2 ^ 32) :
    p.inRam m ↔ ∃ r ∈ m.map, r.type = e820Ram ∧ r.addr.toNat ≤ p.pPaddr.toNat ∧
      2 ^ 32 ≤ r.addr.toNat + r.size.toNat := by
  have hp := p.pPaddr.toNat_lt
  constructor
  · rintro ⟨r, hr, htype, hin⟩
    have hfirst := hin 0 (by omega)
    have hlast := hin (p.pMemsz.toNat - 1) (by omega)
    exact ⟨r, hr, htype, by omega, by omega⟩
  · rintro ⟨r, hr, htype, hlo, hhi⟩
    exact ⟨r, hr, htype, fun k hk => by omega⟩

/-- An accepted segment is safe exactly when its sums do not wrap, or it is safe at the top. -/
theorem safe_iff_of_prepared (h : prepSegment m mem p.pPaddr.toNat p.mid p.fin = .ok mem') :
    p.Safe m ↔ p.unwrapped ∨ p.safeAtTop m := by
  obtain ⟨hmid, htext, hheap, ⟨r, hr, hfit⟩, -⟩ := prepSegment_ok h
  have hfs := p.pFilesz.toNat_lt
  unfold Elf32Phdr.mid Elf32Phdr.fin at hmid
  unfold Elf32Phdr.fin at htext hheap hfit
  rcases Nat.lt_trichotomy (p.pPaddr.toNat + p.pMemsz.toNat) (2 ^ 32) with hlt | htop | hgt
  · -- `end` is the true end of the segment
    rw [Nat.mod_eq_of_lt hlt] at hmid htext hheap hfit
    constructor
    · intro hsafe
      have := hsafe.filesz_le
      exact Or.inl ⟨by omega, hlt⟩
    · rintro (⟨hfile, -⟩ | ⟨htop, -⟩)
      · exact ⟨by omega, by omega, inRam_of_fits hr hfit, avoids_of_overlaps htext,
          avoids_of_overlaps hheap⟩
      · omega
  · -- `end` is 0, so `mid` is 0 as well and the file part fills the segment
    constructor
    · intro hsafe
      exact Or.inr ⟨htop, (inRam_top_iff htop).mp hsafe.ram, (avoids_top_iff htop).mp hsafe.etherboot,
        (avoids_top_iff htop).mp hsafe.heap⟩
    · rintro (⟨-, hlt⟩ | ⟨-, hram, hetherboot, hheap'⟩)
      · omega
      · exact ⟨by omega, by omega, (inRam_top_iff htop).mpr hram,
          (avoids_top_iff htop).mpr hetherboot, (avoids_top_iff htop).mpr hheap'⟩
  · constructor
    · intro hsafe
      have := hsafe.no_wrap
      omega
    · rintro (⟨-, hlt⟩ | ⟨htop, -⟩) <;> omega

/-- **When an accepted executable is safe to load.** For every first block, memory map and heap: an
    accepted `ET_EXEC` image has only safe `PT_LOAD` segments if and only if none of them wraps in
    the sums the probe forms (or wraps exactly to the end of the address space, harmlessly). -/
theorem elf32Probe_safe_iff (m : Machine) (fuel : Nat) (mem mem' : Store) (b : Block) (st : ElfState)
    (h : elf32Probe m fuel mem b = some (.download st mem'))
    (hexec : (Elf32Ehdr.read b.data).eType = etExec) :
    (∀ p ∈ phdrTable b, p.pType = ptLoad → p.Safe m) ↔
      ∀ p ∈ phdrTable b, p.pType = ptLoad → p.unwrapped ∨ p.safeAtTop m := by
  have hphdr := elf32Probe_exec h hexec
  have hprep := elf32Probe_prepared h
  rw [hphdr] at hprep
  constructor
  · intro hsafe p hp hload
    obtain ⟨mem1, mem2, hok⟩ := hprep p hp hload
    exact (safe_iff_of_prepared hok).mp (hsafe p hp hload)
  · intro hcond p hp hload
    obtain ⟨mem1, mem2, hok⟩ := hprep p hp hload
    exact (safe_iff_of_prepared hok).mpr (hcond p hp hload)

/-! ## An image that wraps and one that does not -/

/-- The header of an i386 executable whose `n` program headers follow it at once. -/
def execHeader (n : UInt16) : Elf32Ehdr where
  eIdent := [0x7f, 0x45, 0x4c, 0x46, 1, 1, 1, 0, 0, 0, 0, 0, 0, 0, 0, 0]
  eType := etExec
  eMachine := em386
  eVersion := 1
  eEntry := 0x100000
  ePhoff := 52
  eShoff := 0
  eFlags := 0
  eEhsize := 52
  ePhentsize := 32
  ePhnum := n
  eShentsize := 0
  eShnum := 0
  eShstrndx := 0

/-- Etherboot at `[0x20000, 0x40000)`, a heap at `[0x50000, 0x60000)`, and RAM from 1M to 3G. -/
def smallMachine : Machine where
  text := 0x20000
  end_ := 0x40000
  heapPtr := 0x50000
  heapBot := 0x60000
  map := [⟨0x100000, 0xbff00000, e820Ram⟩]
  em64 := false

/-- Both sums wrap, to `mid = 0x10000` and `end = 0x90000`: the zeroed tail covers Etherboot. -/
def wrappingSegment : Elf32Phdr := ⟨ptLoad, 84, 0, 0x80000000, 0x80010000, 0x80090000, 7, 0⟩

def wrappingImage : Block :=
  ⟨(execHeader 1).toBytes ++ wrappingSegment.toBytes, fun _ => 0, 0x30000, by decide⟩

theorem wrappingImage_accepted_unsafe :
    (∃ st mem', elf32Probe smallMachine 1 (fun _ => 0) wrappingImage = some (.download st mem')) ∧
      (Elf32Ehdr.read wrappingImage.data).eType = etExec ∧
      ¬ ∀ p ∈ phdrTable wrappingImage, p.pType = ptLoad → p.Safe smallMachine := by
  refine ⟨⟨_, _, rfl⟩, by decide, fun hsafe => ?_⟩
  have hmem : wrappingSegment ∈ phdrTable wrappingImage := by decide
  have hwrap := (hsafe wrappingSegment hmem rfl).no_wrap
  exact absurd hwrap (by decide)

def plainSegment : Elf32Phdr := ⟨ptLoad, 84, 0, 0x100000, 4, 0x1000, 7, 0⟩

def plainImage : Block :=
  ⟨(execHeader 1).toBytes ++ plainSegment.toBytes ++ [1, 2, 3, 4], fun _ => 0, 0x30000, by decide⟩

theorem plainImage_safe :
    (Elf32Ehdr.read plainImage.data).eType = etExec ∧
    ∀ p ∈ phdrTable plainImage, p.pType = ptLoad → p.Safe smallMachine := by
  refine ⟨by decide, ?_⟩
  refine (elf32Probe_safe_iff smallMachine 1 (fun _ => 0) _ plainImage _ rfl (by decide)).mpr ?_
  have htable : phdrTable plainImage = [plainSegment] := by decide
  intro p hp _
  rw [htable, List.mem_singleton] at hp
  subst hp
  exact Or.inl ⟨by decide, by decide⟩

end Osloader
