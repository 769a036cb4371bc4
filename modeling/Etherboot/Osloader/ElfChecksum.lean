import Etherboot.Osloader.ElfLoad

set_option autoImplicit false

/-! # The checksum of a loaded image (`elf_startkernel` in `core/elf_loader.c`)

The loader sums up the ELF header, the program headers and the memory of the `PT_LOAD` segments,
piece by piece, and compares the sum with the one a note gives. `imageChecksum_eq` says that the
pieces come to the checksum of all the bytes one after the other. The headers are those of the
loader's state, though, in which `relocate` has shifted the entry point and the addresses; every
other byte is the file's. Modulo `0xffff` a shifted field changes the sum by what it was shifted by,
so `imageChecksum_file_iff` can say exactly when the shift shows. -/

namespace Osloader

open Memory OnesComplement Elf32Phdr Elf32Ehdr Net

/-! ## What the loader sums up -/

/-- The memory of the `PT_LOAD` segments, in header order. -/
def loadsMemory (mem : Store) (ps : List Elf32Phdr) : List UInt8 :=
  ps.flatMap fun p =>
    if p.pType = ptLoad then (List.range p.pMemsz.toNat).map fun k => mem (p.addr k) else []

theorem loadsChecksum_eq (mem : Store) (ps : List Elf32Phdr) :
    ∀ (bytes : Nat) (u : List UInt8), bytes % 2 = u.length % 2 →
      loadsChecksum mem ps bytes (ipchksum u) = ipchksum (u ++ loadsMemory mem ps) := by
  induction ps with
  | nil =>
    intro bytes u _
    simp [loadsChecksum, loadsMemory]
  | cons p ps ih =>
    intro bytes u hbytes
    by_cases htype : p.pType = ptLoad
    · have hnext := ih ((bytes + p.pMemsz.toNat) % 2 ^ 32)
        (u ++ (List.range p.pMemsz.toNat).map fun k => mem (p.addr k))
        (by rw [List.length_append, List.length_map, List.length_range]; omega)
      rw [← addIpchksums_at _ hbytes] at hnext
      simp only [loadsChecksum, loadsMemory, List.flatMap_cons, htype, ne_eq,
        not_true_eq_false, if_false, ← List.append_assoc]
      exact hnext
    · simp only [loadsChecksum, loadsMemory, List.flatMap_cons, ne_eq, htype, not_false_eq_true, if_true]
      exact ih bytes u hbytes

@[simp] theorem Elf32Phdr.length_toBytes (p : Elf32Phdr) : p.toBytes.length = 32 := by
  simp [toBytes]

variable {e : Elf32Ehdr} {mem : Store} {st : ElfState}

theorem Elf32Ehdr.length_toBytes (h : e.eIdent.length = 16) : e.toBytes.length = 52 := by
  simp [toBytes, h]

variable (f : Store) (F : List UInt8) (d : UInt32) (ps : List Elf32Phdr)

theorem length_phdrBytes :
    (ps.flatMap Elf32Phdr.toBytes).length = 32 * ps.length := by
  induction ps with
  | nil => rfl
  | cons p ps ih =>
    rw [List.flatMap_cons, List.length_append, ih, Elf32Phdr.length_toBytes, List.length_cons]
    ring

/-- The piecewise sum is the checksum of the pieces one after the other. -/
theorem imageChecksum_eq (st : ElfState) (mem : Store) (hident : st.ehdr.eIdent.length = 16) :
    imageChecksum st mem = ipchksum
      (st.ehdr.toBytes ++ st.phdr.flatMap Elf32Phdr.toBytes ++ loadsMemory mem st.phdr) := by
  have hehdr := length_toBytes hident
  have hheaders : addIpchksums sizeofEhdr (ipchksum st.ehdr.toBytes)
      (ipchksum (st.phdr.flatMap Elf32Phdr.toBytes))
        = ipchksum (st.ehdr.toBytes ++ st.phdr.flatMap Elf32Phdr.toBytes) :=
    addIpchksums_at _ (by rw [hehdr, sizeofEhdr])
  simp only [imageChecksum, hheaders]
  apply loadsChecksum_eq
  rw [List.length_append, hehdr, length_phdrBytes, sizeofEhdr, sizeofPhdr]
  omega

/-! ## Headers as they stand in a file -/

theorem le16Bytes_half (p : Nat) : le16Bytes (half f p).toNat = f.slice p 2 := by
  rw [← le16Bytes_le16]
  refine le16Bytes_congr ?_
  rw [half, UInt16.toNat_ofNat']
  omega

theorem le32Bytes_word (p : Nat) : le32Bytes (word f p).toNat = f.slice p 4 := by
  rw [word, UInt32.toNat_ofNat', Nat.mod_eq_of_lt (le32_lt f p), le32Bytes_le32]

theorem Elf32Ehdr.toBytes_read : (read f).toBytes = f.slice 0 sizeofEhdr := by
  have hsize : sizeofEhdr = 16 + 2 + 2 + 4 + 4 + 4 + 4 + 4 + 2 + 2 + 2 + 2 + 2 + 2 := rfl
  simp only [toBytes, read, le16Bytes_half, le32Bytes_word]
  rw [hsize]
  iterate 13 rw [Store.slice_append]

theorem Elf32Phdr.toBytes_read (o : Nat) :
    (read fun k => f (o + k)).toBytes = f.slice o sizeofPhdr := by
  have hsize : sizeofPhdr = 4 + 4 + 4 + 4 + 4 + 4 + 4 + 4 := rfl
  simp only [toBytes, read, le32Bytes_word]
  rw [hsize]
  iterate 7 rw [Store.slice_append]
  rfl

theorem phdrBytes_read (o n : Nat) :
    ((List.range n).map fun i => Elf32Phdr.read fun k => f (o + sizeofPhdr * i + k)).flatMap
      Elf32Phdr.toBytes = f.slice o (sizeofPhdr * n) := by
  induction n with
  | zero => rfl
  | succ n ih =>
    rw [List.range_succ, List.map_append, List.flatMap_append, ih, Nat.mul_succ, Store.slice_append]
    simp only [List.map_cons, List.map_nil, List.flatMap_cons, List.flatMap_nil, List.append_nil,
      Elf32Phdr.toBytes_read]

/-! ## What the shift of an address does to a sum -/

theorem byteSum_le16Bytes (v : Nat) : byteSum false (le16Bytes v) = v % 65536 := by
  simp only [le16Bytes, byteSum, UInt8.toNat_ofNat', Bool.not_false, if_true, Bool.false_eq_true, if_false]
  omega

theorem byteSum_le32Bytes (x : UInt32) : byteSum false (le32Bytes x.toNat) % 65535 = x.toNat % 65535 := by
  have hx := x.toNat_lt
  have hsplit : x.toNat = 65535 * (x.toNat / 65536) + (x.toNat % 65536 + x.toNat / 65536 % 65536) := by
    omega
  rw [le32Bytes, byteSum_append_even _ _ (by rw [length_le16Bytes]), byteSum_le16Bytes, byteSum_le16Bytes]
  conv_rhs => rw [hsplit, Nat.mul_add_mod]

theorem byteSum_field {u : List UInt8} (hu : u.length % 2 = 0) (w : List UInt8) (x y : UInt32) :
    (byteSum false (u ++ (le32Bytes x.toNat ++ w)) + y.toNat) % 65535
      = (byteSum false (u ++ (le32Bytes y.toNat ++ w)) + x.toNat) % 65535 := by
  have hx := byteSum_le32Bytes x
  have hy := byteSum_le32Bytes y
  rw [byteSum_append_even _ _ hu, byteSum_append_even _ _ hu,
    byteSum_append_even _ _ (by rw [length_le32Bytes]), byteSum_append_even _ _ (by rw [length_le32Bytes])]
  omega

/-- An entry point that is `d` further on. -/
def Elf32Ehdr.shift (e : Elf32Ehdr) : Elf32Ehdr := { e with eEntry := e.eEntry + d }

/-- A segment that is loaded `d` further on. -/
def Elf32Phdr.shift (p : Elf32Phdr) : Elf32Phdr := { p with pPaddr := p.pPaddr + d }

theorem Elf32Ehdr.byteSum_shift (h : e.eIdent.length = 16) :
    (byteSum false (e.shift d).toBytes + e.eEntry.toNat) % 65535
      = (byteSum false e.toBytes + (e.shift d).eEntry.toNat) % 65535 := by
  have hfield := byteSum_field
    (u := e.eIdent ++ (le16Bytes e.eType.toNat ++ (le16Bytes e.eMachine.toNat ++
      le32Bytes e.eVersion.toNat)))
    (by simp [h])
    (le32Bytes e.ePhoff.toNat ++ (le32Bytes e.eShoff.toNat ++ (le32Bytes e.eFlags.toNat ++
      (le16Bytes e.eEhsize.toNat ++ (le16Bytes e.ePhentsize.toNat ++ (le16Bytes e.ePhnum.toNat ++
      (le16Bytes e.eShentsize.toNat ++ (le16Bytes e.eShnum.toNat ++
      le16Bytes e.eShstrndx.toNat))))))))
    (e.eEntry + d) e.eEntry
  simpa only [shift, toBytes, List.append_assoc] using hfield

theorem Elf32Phdr.byteSum_shift (p : Elf32Phdr) :
    (byteSum false (p.shift d).toBytes + p.pPaddr.toNat) % 65535
      = (byteSum false p.toBytes + (p.shift d).pPaddr.toNat) % 65535 := by
  have hfield := byteSum_field
    (u := le32Bytes p.pType.toNat ++ (le32Bytes p.pOffset.toNat ++ le32Bytes p.pVaddr.toNat)) (by simp)
    (le32Bytes p.pFilesz.toNat ++ (le32Bytes p.pMemsz.toNat ++ (le32Bytes p.pFlags.toNat ++
      le32Bytes p.pAlign.toNat)))
    (p.pPaddr + d) p.pPaddr
  simpa only [shift, toBytes, List.append_assoc] using hfield

/-- The addresses of a table, added up. -/
def paddrSum : Nat := (ps.map fun p => p.pPaddr.toNat).sum

/-- The addresses that relocation shifts, added up. -/
def addressSum (e : Elf32Ehdr) (ps : List Elf32Phdr) : Nat := e.eEntry.toNat + paddrSum ps

section

variable (d : UInt32) (ps : List Elf32Phdr)

theorem byteSum_phdrs_shift :
    (byteSum false ((ps.map (Elf32Phdr.shift d)).flatMap Elf32Phdr.toBytes) + paddrSum ps) % 65535
      = (byteSum false (ps.flatMap Elf32Phdr.toBytes)
          + paddrSum (ps.map (shift d))) % 65535 := by
  induction ps with
  | nil => rfl
  | cons p ps ih =>
    have hp := p.byteSum_shift d
    simp only [paddrSum, List.map_cons, List.flatMap_cons, List.sum_cons] at ih ⊢
    rw [byteSum_append_even _ _ (by rw [Elf32Phdr.length_toBytes]),
      byteSum_append_even _ _ (by rw [Elf32Phdr.length_toBytes])]
    omega

theorem byteSum_headers_shift (image : List UInt8)
    (h : e.eIdent.length = 16) :
    (byteSum false ((e.shift d).toBytes ++ (ps.map (Elf32Phdr.shift d)).flatMap Elf32Phdr.toBytes ++ image)
        + addressSum e ps) % 65535
      = (byteSum false (e.toBytes ++ ps.flatMap Elf32Phdr.toBytes ++ image)
          + addressSum (e.shift d) (ps.map (shift d))) % 65535 := by
  have he := byteSum_shift d h
  have hps := byteSum_phdrs_shift d ps
  have hlen := length_toBytes h
  have hlen' : (e.shift d).toBytes.length = 52 := length_toBytes (e := e.shift d) h
  have hphdrs := length_phdrBytes ps
  have hphdrs' := length_phdrBytes (ps.map (shift d))
  unfold addressSum
  simp only [List.append_assoc]
  rw [byteSum_append_even _ _ (by omega), byteSum_append_even _ _ (by omega),
    byteSum_append_even _ _ (by omega), byteSum_append_even _ _ (by omega)]
  omega

/-- The bytes of two images differ in sum exactly if their addresses do. -/
theorem ipchksum_shift_iff (image : List UInt8)
    (h : e.eIdent.length = 16) (hmagic : 0x7f ∈ e.eIdent) :
    ipchksum ((e.shift d).toBytes ++ (ps.map (Elf32Phdr.shift d)).flatMap Elf32Phdr.toBytes ++ image)
        = ipchksum (e.toBytes ++ ps.flatMap Elf32Phdr.toBytes ++ image) ↔
      addressSum (e.shift d) (ps.map (shift d)) % 65535 = addressSum e ps % 65535 := by
  -- the magic number keeps both sums from being 0, which has two representations
  have hpos : ∀ e' : Elf32Ehdr, 0x7f ∈ e'.eIdent → ∀ u : List UInt8,
      0 < byteSum false (e'.toBytes ++ u ++ image) := by
    intro e' he' u
    apply Nat.pos_of_ne_zero
    intro hzero
    have hall := (byteSum_eq_zero false _).mp hzero 0x7f (by simp [Elf32Ehdr.toBytes, he'])
    cases hall
  have hshift := byteSum_headers_shift d ps image h
  have hle := canon_le (byteSum false (e.toBytes ++ ps.flatMap Elf32Phdr.toBytes ++ image))
  have hle' := canon_le (byteSum false
    ((e.shift d).toBytes ++ (ps.map (Elf32Phdr.shift d)).flatMap Elf32Phdr.toBytes ++ image))
  have hinj := canon_inj (hpos (e.shift d) hmagic ((ps.map (Elf32Phdr.shift d)).flatMap Elf32Phdr.toBytes))
    (hpos e hmagic (ps.flatMap Elf32Phdr.toBytes))
  rw [ipchksum_eq, ipchksum_eq]
  constructor
  · intro hsum
    omega
  · intro haddress
    rw [hinj.mpr (by omega)]

end

/-! ## The headers the loader has -/

/-- How far `relocate` shifts an image. -/
def relocationDelta (m : Machine) (e : Elf32Ehdr) (phdr : List Elf32Phdr) : UInt32 :=
  if e.eType ≠ etDyn then 0
  else
    let (min, max, align) := loadSpan phdr (2 ^ 32 - 1, 0, 1)
    UInt32.ofNat (findSegment m ((max + (2 ^ 32 - min)) % 2 ^ 32) align + (2 ^ 32 - min))

theorem relocate_shift {m : Machine} {e' : Elf32Ehdr} {phdr phdr' : List Elf32Phdr}
    (h : relocate m e phdr = .ok (e', phdr')) :
    e' = e.shift (relocationDelta m e phdr) ∧
      phdr' = phdr.map (Elf32Phdr.shift (relocationDelta m e phdr)) := by
  unfold relocate at h
  unfold relocationDelta
  split at h
  · next htype =>
    simp only [Except.ok.injEq, Prod.mk.injEq] at h
    rw [if_pos htype, ← h.1, ← h.2]
    have hstay : Elf32Phdr.shift 0 = id := by
      funext p
      simp [Elf32Phdr.shift]
    simp [Elf32Ehdr.shift, hstay]
  · next htype =>
    simp only at h
    split_ifs at h
    simp only [Except.ok.injEq, Prod.mk.injEq] at h
    rw [if_neg htype, ← h.1, ← h.2]
    exact ⟨rfl, rfl⟩

theorem elf32Probe_magic {m : Machine} {fuel : Nat} {mem' : Store} {b : Block}
    (h : elf32Probe m fuel mem b = some (.download st mem')) :
    0x7f ∈ (Elf32Ehdr.read b.data).eIdent := by
  have hident : elf32Ident m (read b.data) = true := by
    by_contra hfalse
    rw [Bool.not_eq_true] at hfalse
    simp only [elf32Probe, hfalse, if_true] at h
    split at h <;> exact by cases h
  simp only [elf32Ident, Bool.and_eq_true, decide_eq_true_eq] at hident
  apply List.mem_of_mem_take (i := 7)
  rw [hident.1.1.1.1.1]
  simp

/-- The headers in the loader's state. -/
def ElfRun.headers (r : ElfRun) : Elf32Ehdr × List Elf32Phdr := (r.st.ehdr, r.st.phdr)

theorem advance_headers (data : Data) (len : Nat) (w : Work) :
    (advance data len w).1.run.headers = w.run.headers := by
  simp only [advance]
  split
  · rfl
  · split
    · rfl
    · split <;> rfl

theorem nextSegment_headers {w w' : Work} (h : nextSegment w = some w') :
    w'.run.headers = w.run.headers := by
  unfold nextSegment at h
  split at h
  · cases h
  · simp only [Option.some.injEq] at h
    rw [← h]
    rfl

theorem elf32Loop_headers (data : Data) (len : Nat) :
    ∀ (fuel : Nat) (w : Work), (elf32Loop data len fuel w).1.run.headers = w.run.headers := by
  intro fuel
  induction fuel with
  | zero => intro w; rfl
  | succ fuel ih =>
    intro w
    have hadvance := advance_headers data len w
    rw [elf32Loop]
    split
    · next w1 h1 => rwa [h1] at hadvance
    · next w1 h1 =>
      rw [h1] at hadvance
      split
      · exact hadvance
      · next w2 hnext =>
        have hsame := (nextSegment_headers hnext).trans hadvance
        split
        · exact (ih w2).trans hsame
        · exact hsame

/-- The loader's states between its calls, whatever data they are given. -/
inductive Called (st : ElfState) (mem : Store) : ElfRun → Prop where
  | probed : Called st mem ⟨st, mem, []⟩
  | again {r r' : ElfRun} {data : Data} {len : Nat} {skip : UInt64} (h : Called st mem r)
      (hcall : elf32Download r data len false = .returned r' skip) : Called st mem r'

/-- The states in which the loader comes to `elf_startkernel`: in the middle of a call, when no segment
    is left, or behind the loop at the end of the file. -/
inductive AtStartkernel (st : ElfState) (mem : Store) : ElfRun → Prop where
  | loaded {r : ElfRun} {w : Work} {data : Data} {len : Nat} (h : Called st mem r)
      (hloop : elf32Loop data len (len + 2) ⟨r, 0⟩ = (w, .startKernel)) : AtStartkernel st mem w.run
  | eof {r : ElfRun} {w : Work} {data : Data} {len : Nat} (h : Called st mem r)
      (hloop : elf32Loop data len (len + 2) ⟨r, 0⟩ = (w, .fellOut)) :
      AtStartkernel st mem (w.run.settle len)

theorem Called.headers {r : ElfRun} (h : Called st mem r) : r.headers = (st.ehdr, st.phdr) := by
  induction h with
  | probed => rfl
  | @again r r' data len skip _ hcall ih =>
    have hloop := elf32Loop_headers data len (len + 2) ⟨r, 0⟩
    unfold elf32Download at hcall
    split at hcall
    · cases hcall
    · cases hcall
    · next w hw =>
      simp only [Bool.false_eq_true, if_false, Download.returned.injEq] at hcall
      rw [hw] at hloop
      rw [← hcall.1]
      exact hloop.trans ih

theorem AtStartkernel.headers {r : ElfRun}
    (h : AtStartkernel st mem r) : r.headers = (st.ehdr, st.phdr) := by
  cases h with
  | @loaded r w data len h hloop =>
    have hsame := elf32Loop_headers data len (len + 2) ⟨r, 0⟩
    rw [hloop] at hsame
    exact hsame.trans h.headers
  | @eof r w data len h hloop =>
    have hsame := elf32Loop_headers data len (len + 2) ⟨r, 0⟩
    rw [hloop] at hsame
    exact hsame.trans h.headers

/-! ## The sum of the file -/

/-- The memory images of the `PT_LOAD` segments of a file, in header order. -/
def loadsImage : List UInt8 :=
  ps.flatMap fun p =>
    if p.pType = ptLoad then (List.range p.pMemsz.toNat).map (imageByte F p) else []

/-- The headers of a file as they stand in it, followed by the memory images of its segments. -/
def checkedBytes : List UInt8 :=
  let e := Elf32Ehdr.read (fileData F)
  Store.slice (fileData F) 0 sizeofEhdr ++
    Store.slice (fileData F) e.ePhoff.toNat (sizeofPhdr * e.ePhnum.toNat) ++
    loadsImage F (imagePhdrs F)

theorem checkedBytes_eq :
    checkedBytes F = (Elf32Ehdr.read (fileData F)).toBytes ++
      (imagePhdrs F).flatMap Elf32Phdr.toBytes ++ loadsImage F (imagePhdrs F) := by
  rw [Elf32Ehdr.toBytes_read, imagePhdrs, phdrBytes_read]
  rfl

theorem loadsImage_shift :
    loadsImage F (ps.map (shift d)) = loadsImage F ps := by
  unfold loadsImage
  rw [List.flatMap_map]
  rfl

theorem loadsMemory_loaded {F : List UInt8} {ps : List Elf32Phdr}
    (h : ∀ p ∈ ps, p.pType = ptLoad → ∀ k < p.pMemsz.toNat, mem (p.addr k) = imageByte F p k) :
    loadsMemory mem ps = loadsImage F ps := by
  rw [loadsMemory, loadsImage, List.flatMap_def, List.flatMap_def]
  congr 1
  apply List.map_congr_left
  intro p hp
  split
  · next htype =>
    apply List.map_congr_left
    intro k hk
    exact h p hp htype k (List.mem_range.mp hk)
  · rfl

/-- **The checksum of a loaded image** is that of the file's headers and the memory images if and only
    if the program headers stand in the first block and the shift does not show modulo `0xffff`. -/
theorem imageChecksum_file_iff (m : Machine) (fuel : Nat) (mem mem' : Store) (b : Block)
    (after : List UInt8) (st : ElfState) (r : ElfRun)
    (hprobe : elf32Probe m fuel mem b = some (.download st mem')) (hstart : AtStartkernel st mem' r)
    (hloaded : ∀ p ∈ r.st.phdr, p.pType = ptLoad → ∀ k < p.pMemsz.toNat,
      r.mem (p.addr k) = imageByte (b.bytes ++ after) p k) :
    holdsHeaders b ∧ imageChecksum r.st r.mem = Net.ipchksum (checkedBytes (b.bytes ++ after)) ↔
      holdsHeaders b ∧
        let e := Elf32Ehdr.read b.data
        let d := relocationDelta m e (phdrTable b)
        addressSum (e.shift d) ((phdrTable b).map (Elf32Phdr.shift d)) % 65535
          = addressSum e (phdrTable b) % 65535 := by
  apply and_congr_right
  intro hheaders
  obtain ⟨e', ns, hreloc, -, -, hst⟩ := elf32Probe_download hprobe
  have hlen := elf32Probe_len hprobe
  have hehdr : Elf32Ehdr.read b.data = Elf32Ehdr.read (fileData (b.bytes ++ after)) :=
    read_congr fun i hi => by simpa using data_eq_fileData b [] after (by omega)
  have htable : phdrTable b = imagePhdrs (b.bytes ++ after) := phdrTable_eq_imagePhdrs hlen hheaders
  have hident : (Elf32Ehdr.read b.data).eIdent.length = 16 := Store.length_slice ..
  obtain ⟨hshifted, hphdr⟩ := relocate_shift hreloc
  have hsame := hstart.headers
  simp only [ElfRun.headers, Prod.mk.injEq] at hsame
  obtain ⟨hsameE, hsameP⟩ := hsame
  have hste : st.ehdr = e' := by rw [hst]
  have hrident : r.st.ehdr.eIdent.length = 16 := by rw [hsameE, hste, hshifted]; exact hident
  rw [imageChecksum_eq r.st r.mem hrident, loadsMemory_loaded hloaded, checkedBytes_eq, ← hehdr, ← htable,
    hsameE, hsameP, hste, hshifted, hphdr, loadsImage_shift]
  exact ipchksum_shift_iff _ _ _ hident (elf32Probe_magic hprobe)

/-- An image of one segment that is loaded to 2M, or wherever there is room. -/
def twoMegImage (type : UInt16) : Block where
  bytes := { execHeader 1 with eType := type }.toBytes ++
    { plainSegment with pPaddr := 0x200000, pMemsz := 6 }.toBytes ++ [1, 2, 3, 4]
  around := fun _ => 0
  addr := 0x30000
  short := by
    rw [List.length_append, List.length_append, Elf32Ehdr.length_toBytes rfl, Elf32Phdr.length_toBytes]
    decide

theorem twoMegImage_exec_checksum :
    ∃ st mem' r, elf32Probe smallMachine 1 (fun _ => 0) (twoMegImage etExec) = some (.download st mem') ∧
      AtStartkernel st mem' r ∧
      imageChecksum r.st r.mem = Net.ipchksum (checkedBytes (twoMegImage etExec).bytes) := by
  obtain ⟨st, mem', hprobe, w, hloop, hloaded⟩ : ∃ st mem', elf32Probe smallMachine 1 (fun _ => 0)
      (twoMegImage etExec) = some (.download st mem') ∧ ∃ w, elf32Loop ⟨(twoMegImage etExec).data, 0⟩ 88 90 ⟨⟨st, mem', []⟩, 0⟩
        = (w, .startKernel) ∧ ∀ p ∈ w.run.st.phdr, p.pType = ptLoad → ∀ k < p.pMemsz.toNat,
          w.run.mem (p.addr k) = imageByte ((twoMegImage etExec).bytes ++ []) p k :=
    ⟨_, _, rfl, _, rfl, by decide +kernel⟩
  have hstart : AtStartkernel st mem' w.run := .loaded .probed hloop
  have hsum := (imageChecksum_file_iff smallMachine 1 (fun _ => 0) mem' (twoMegImage etExec) [] st w.run
    hprobe hstart hloaded).mpr ⟨by unfold holdsHeaders; decide, by decide +kernel⟩
  rw [List.append_nil] at hsum
  exact ⟨st, mem', w.run, hprobe, hstart, hsum.2⟩

/-- The same image with another type is loaded to 1M, completely, and its sum is another one. -/
theorem twoMegImage_dyn_checksum :
    holdsHeaders (twoMegImage etDyn) ∧
      ∃ st mem' r, elf32Probe smallMachine 1 (fun _ => 0) (twoMegImage etDyn) = some (.download st mem') ∧
        AtStartkernel st mem' r ∧
        (∀ p ∈ r.st.phdr, p.pType = ptLoad → ∀ k < p.pMemsz.toNat,
          r.mem (p.addr k) = imageByte (twoMegImage etDyn).bytes p k) ∧
        imageChecksum r.st r.mem ≠ Net.ipchksum (checkedBytes (twoMegImage etDyn).bytes) := by
  obtain ⟨st, mem', hprobe, w, hloop, hloaded, hsum⟩ : ∃ st mem', elf32Probe smallMachine 1 (fun _ => 0)
      (twoMegImage etDyn) = some (.download st mem') ∧ ∃ w, elf32Loop ⟨(twoMegImage etDyn).data, 0⟩ 88 90 ⟨⟨st, mem', []⟩, 0⟩
        = (w, .startKernel) ∧ (∀ p ∈ w.run.st.phdr, p.pType = ptLoad → ∀ k < p.pMemsz.toNat,
          w.run.mem (p.addr k) = imageByte (twoMegImage etDyn).bytes p k) ∧
        imageChecksum w.run.st w.run.mem ≠ ipchksum (checkedBytes (twoMegImage etDyn).bytes) :=
    ⟨_, _, rfl, _, rfl, by decide +kernel, by decide +kernel⟩
  exact ⟨by unfold holdsHeaders; decide, st, mem', w.run, hprobe, .loaded .probed hloop, hloaded, hsum⟩

end Osloader
