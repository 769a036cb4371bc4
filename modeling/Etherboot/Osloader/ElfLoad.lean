import Etherboot.Osloader.ElfDownload

set_option autoImplicit false

/-! # Loading a whole ELF32 file

`load_block` and `elf32_download` put together: a file cut into blocks goes through `runBlocks` with
the ELF loader behind `os_download`. The position in the file is spread over `estate.loc` and
`estate.skip` on one side and `skip_sectors` and `skip_bytes` on the other; `Loading` ties the four
together from block to block.

`runBlocks_loading` is the run lemma: as long as the segments' file ranges are disjoint and lie in
the data that arrives, an image is started only when it is complete, however the file is cut. The
loader has no test for either condition, and starts what it has when the file ends or a segment lies
behind it. `elfLoad_frame` says what the load leaves alone. -/

namespace Osloader

open Memory Elf32Phdr

/-- What stands behind `os_download`: `dead_download`, or `elf32_download` with its state. -/
inductive ElfLoader where
  | dead
  | image (r : ElfRun)

/-- `dead_download` jumps back to `restart_etherboot`. -/
def elfOsDownload : ElfLoader → Data → Nat → Bool → Download ElfLoader ElfExit
  | .dead, _, _, _ => .left .restarted
  | .image r, data, len, eof =>
    match elf32Download r data len eof with
    | .returned r skip => .returned (.image r) skip
    | .left e => .left e

/-- `probe_image` in a build with `ELF_IMAGE` alone. -/
def probeImage (m : Machine) (fuel : Nat) (mem : Store) (b : Block) : ProbeImage ElfLoader ElfExit :=
  match elf32Probe m fuel mem b with
  | none => .left .hung
  | some .notElf => .declined
  | some (.dead _) => .accepted .dead
  | some (.download st mem) => .accepted (.image ⟨st, mem, []⟩)

/-- A file is fed to `load_block` block by block, with `block` counting from 1. -/
def elfLoad (m : Machine) (fuel : Nat) (mem : Store) (bs : List (Block × Bool)) :
    LoadResult ElfLoader ElfExit :=
  (runBlocks (probeImage m fuel mem) elfOsDownload none 1 0 bs).2

/-! ## The file -/

/-- The bytes of a file given in blocks. -/
def fileBytes (bs : List (Block × Bool)) : List UInt8 := bs.flatMap (fun x => x.1.bytes)

/-- A file by offset. -/
def fileData (F : List UInt8) : Nat → UInt8 := fun i => (F[i]?).getD 0

/-- The number of bytes up to the end of the first block that has the end-of-file flag. -/
def dataEnd : List (Block × Bool) → Option Nat
  | [] => none
  | (b, true) :: _ => some b.len
  | (b, false) :: rest => (dataEnd rest).map (b.len + ·)

theorem data_eq_fileData (b : Block) (before after : List UInt8) {i : Nat} (h : i < b.len) :
    b.data i = fileData (before ++ (b.bytes ++ after)) (before.length + i) := by
  simp [Block.data, fileData, List.getElem?_append_right, List.getElem?_append_left h,
    List.getElem?_eq_getElem h]

/-! ## From block to block -/

section Loading

variable (F : Nat → UInt8) (mem0 : Store) (ps : List Elf32Phdr) (ns : ElfNotes)

/-- The state of a load before the block at file offset `pos`. What `elf32_download` takes for its
    position lies ahead of the block by just what `load_block` has yet to skip. -/
structure Loading (l : Loader ElfLoader) (r : ElfRun) (pos : Nat) : Prop where
  wf : l.Wf
  image : l.osDownload = .image r
  holds : r.Holds F mem0 ps ns
  loc : r.st.loc = pos + l.pending
  way : (r.st.loc = 0 ∧ r.st.segment = none ∧ Between ps r.log 0) ∨ ∃ p, Reading ps r r.st.loc p

/-- What may come of a run over data up to offset `size`. -/
def RunDone (size : Nat) (more : Option (Loader ElfLoader) → Prop) :
    LoadResult ElfLoader ElfExit → Prop
  | .more l => more l
  | .invalid => False
  | .left (.started r) => r.Holds F mem0 ps ns ∧ Complete ps r.log size
  | .left .restarted => ns.checkIpChecksum = true
  | .left .hung => False

variable {F mem0 ps ns}

theorem RunDone.mono {size size' : Nat} {more more' : Option (Loader ElfLoader) → Prop}
    {res : LoadResult ElfLoader ElfExit} (h : RunDone F mem0 ps ns size more res)
    (hsize : size ≤ size') (hmore : ∀ l, more l → more' l) :
    RunDone F mem0 ps ns size' more' res := by
  rcases res with l | _ | (r | _ | _)
  · exact hmore l h
  · exact h
  · exact ⟨h.1, fun p hp hload => (h.2 p hp hload).mono (fun _ hc => hc) hsize⟩
  · exact h
  · exact h

variable {l : Loader ElfLoader} {r : ElfRun} {pos : Nat}

/-- While there is something to read, the position stays within the reach of 32-bit headers. -/
theorem Loading.loc_lt (h : Loading F mem0 ps ns l r pos) : r.st.loc < 2 ^ 33 := by
  rcases h.way with ⟨hzero, -, -⟩ | ⟨p, hread⟩
  · omega
  · have hbound := hread.bound
    have hend := p.fileEnd_lt
    omega

theorem passOn_loading {b : Block} {eof : Bool}
    (hdis : DisjointFiles ps) (h : Loading F mem0 ps ns l r pos)
    (hdata : ∀ i < b.len, b.data i = F (pos + i)) (hle : l.pending ≤ b.len)
    (hin : eof = true → ∀ p ∈ ps, p.loadable → p.fileEnd ≤ pos + b.len) :
    RunDone F mem0 ps ns (pos + b.len)
      (fun l' => eof = false ∧ ∃ l'' r', l' = some l'' ∧ Loading F mem0 ps ns l'' r' (pos + b.len))
      (passOn elfOsDownload l.osDownload pos b l.pending (b.len - l.pending) eof).2 := by
  have hshort := b.short
  have hlen : b.len + 512 ≤ 2 ^ 32 := hshort
  have hloc := h.loc
  have hlt := h.loc_lt
  have hway : OnTheWay ps r (pos + l.pending) := by
    rcases h.way with ⟨hzero, hseg, hbetween⟩ | hread
    · refine Or.inl ⟨hseg, ?_⟩
      rw [← hloc, hzero]
      exact hbetween
    · rw [hloc] at hread
      exact Or.inr hread
  have hbytes : ∀ i < b.len - l.pending, b.data ((l.pending + i) % 2 ^ 32) = F (pos + l.pending + i) := by
    intro i hi
    rw [Nat.mod_eq_of_lt (by omega), hdata _ (by omega), Nat.add_assoc]
  have hcall := elf32Download_spec ⟨fun i => b.data ((l.pending + i) % 2 ^ 32), pos + l.pending⟩
    (b.len - l.pending) eof hdis h.holds hloc hbytes (by simp only; omega) hway
  have hend : pos + l.pending + (b.len - l.pending) = pos + b.len := by omega
  simp only [passOn, h.image, elfOsDownload]
  generalize elf32Download r _ _ eof = res at hcall
  rcases res with ⟨r', skip⟩ | (r' | _ | _)
  · obtain ⟨heof, hr', hloc', hread⟩ := hcall
    refine ⟨heof, _, r', rfl, ⟨⟨skip.toNat_lt, by simp⟩, rfl, hr', ?_, Or.inr hread⟩⟩
    rw [hloc', hend]
    simp [Loader.pending]
  · obtain ⟨hr', hcomplete | ⟨heof, p, hp, hload, hlate⟩⟩ := hcall
    · rw [hend] at hcomplete
      exact ⟨hr', hcomplete⟩
    · -- the file would have to end inside `p`
      have hwithin := hin heof p hp hload
      simp only at hlate
      omega
  · exact hcall
  · exact hcall

theorem feedBlock_loading (b : Block) (eof : Bool)
    (hdis : DisjointFiles ps) (h : Loading F mem0 ps ns l r pos)
    (hdata : ∀ i < b.len, b.data i = F (pos + i))
    (hin : eof = true → ∀ p ∈ ps, p.loadable → p.fileEnd ≤ pos + b.len) :
    RunDone F mem0 ps ns (pos + b.len)
      (fun l' => eof = false ∧ ∃ l'' r', l' = some l'' ∧ Loading F mem0 ps ns l'' r' (pos + b.len))
      (feedBlock elfOsDownload l pos b eof).2 := by
  have hloc := h.loc
  cases eof with
  | true =>
    have hle : l.pending ≤ b.len := by
      rcases h.way with ⟨hzero, -, -⟩ | ⟨p, hread⟩
      · omega
      · -- the next byte wanted lies in the file
        have hbound := hread.bound
        have hend := hin rfl p hread.mem hread.loadable
        omega
    rw [feedBlock_eof elfOsDownload pos b hle]
    exact passOn_loading hdis h hdata hle hin
  | false =>
    rcases feedBlock_more elfOsDownload h.wf pos b with ⟨hle, l', hfeed, hwf, himg, hpend⟩ |
      ⟨hlt, hfeed⟩
    · rw [hfeed]
      exact ⟨rfl, l', r, rfl, hwf, himg.trans h.image, h.holds, by omega, h.way⟩
    · rw [hfeed]
      exact passOn_loading hdis h hdata hlt.le hin

end Loading

/-! ## The run -/

section Run

variable {F : List UInt8} {mem0 : Store} {ps : List Elf32Phdr} {ns : ElfNotes}

/-- **The run.** From any point of a load on: the image is started only when it is complete, and
    before the data is used up if that has an end. By induction over the blocks; `before` is the part
    of the file that has been fed. -/
theorem runBlocks_loading (probe : Block → ProbeImage ElfLoader ElfExit) (hdis : DisjointFiles ps)
    (bs : List (Block × Bool)) :
    ∀ (l : Loader ElfLoader) (r : ElfRun) (block : Nat) (before : List UInt8),
      Loading (fileData F) mem0 ps ns l r before.length → F = before ++ fileBytes bs →
      (∀ e, dataEnd bs = some e → ∀ p ∈ ps, p.loadable → p.fileEnd ≤ before.length + e) →
      2 ≤ block →
      RunDone (fileData F) mem0 ps ns F.length (fun _ => dataEnd bs = none)
        (runBlocks probe elfOsDownload (some l) block before.length bs).2 := by
  induction bs with
  | nil => intro l r block before _ _ _ _; rfl
  | cons x bs ih =>
    intro l r block before h hF hin hblock
    obtain ⟨b, eof⟩ := x
    have hF' : F = before ++ (b.bytes ++ fileBytes bs) := by simpa [fileBytes] using hF
    have hsize : before.length + b.len ≤ F.length := by
      rw [hF']
      simp [Block.len]
    have hstep := feedBlock_loading b eof hdis h
      (fun i hi => by rw [hF']; exact data_eq_fileData b before _ hi)
      (fun heof p hp hload => hin b.len (by rw [heof]; rfl) p hp hload)
    have hload : loadBlock probe elfOsDownload (some l) block before.length b eof
        = feedBlock elfOsDownload l before.length b eof := by
      rw [loadBlock, if_neg (by omega)]
    rcases hfeed : feedBlock elfOsDownload l before.length b eof with ⟨w, l' | _ | e⟩
    · rw [hfeed] at hstep
      obtain ⟨rfl, l'', r', rfl, hnext⟩ := hstep
      rw [runBlocks_cons _ _ _ _ _ _ _ _ (hload.trans hfeed)]
      have hlen : before.length + b.len = (before ++ b.bytes).length := by simp [Block.len]
      rw [hlen] at hnext ⊢
      refine (ih l'' r' (block + 1) (before ++ b.bytes) hnext (by rw [hF']; simp) ?_
        (by omega)).mono (le_refl _) (fun _ hnone => by simp [dataEnd, hnone])
      intro e he p hp hpload
      have := hin (b.len + e) (by simp [dataEnd, he]) p hp hpload
      omega
    · rw [hfeed] at hstep
      exact hstep.elim
    · rw [hfeed] at hstep
      simp only [runBlocks, hload, hfeed]
      have hexit : RunDone (fileData F) mem0 ps ns (before.length + b.len) (fun _ => False)
          (.left e) := by cases e <;> exact hstep
      exact hexit.mono hsize (fun _ hfalse => hfalse.elim)

end Run

variable {m : Machine} {fuel : Nat} {mem mem' : Store} {b : Block} {st : ElfState}

theorem elfLoad_done {eof : Bool}
    {rest : List (Block × Bool)}
    (hprobe : elf32Probe m fuel mem b = some (.download st mem')) (hdis : DisjointFiles st.phdr)
    (hin : ∀ e, dataEnd ((b, eof) :: rest) = some e → ∀ p ∈ st.phdr, p.loadable → p.fileEnd ≤ e) :
    RunDone (fileData (fileBytes ((b, eof) :: rest))) mem' st.phdr st.notes
      (fileBytes ((b, eof) :: rest)).length (fun _ => dataEnd ((b, eof) :: rest) = none)
      (elfLoad m fuel mem ((b, eof) :: rest)) := by
  obtain ⟨e, ns, -, -, -, hst⟩ := elf32Probe_download hprobe
  have hloc : st.loc = 0 := by rw [hst]
  have hseg : st.segment = none := by rw [hst]
  have himage : probeImage m fuel mem b = .accepted (.image ⟨st, mem', []⟩) := by
    simp only [probeImage, hprobe]
  rw [elfLoad, runBlocks_accepted _ _ himage]
  refine runBlocks_loading (probeImage m fuel mem) hdis _ _ ⟨st, mem', []⟩ 2 [] ?_ rfl
    (by simpa using hin) (le_refl _)
  refine ⟨⟨by simp, by simp⟩, rfl, ⟨rfl, rfl, rfl, ?_⟩, by simpa [Loader.pending] using hloc, ?_⟩
  · intro a x _ hcopied
    obtain ⟨c, hc, -⟩ := hcopied
    cases hc
  · exact Or.inl ⟨hloc, hseg, fun p _ _ => Or.inr (Nat.zero_le _)⟩

/-- **An image is started only when it is complete.** For every accepted image and every run of
    `load_block`: if the file ranges of the segments are disjoint and, where the end-of-file flag
    comes, lie in the data received with and before it, then at the start each segment's file part
    has arrived and all its bytes have been copied from the file to their place. -/
theorem elfLoad_started_complete (m : Machine) (fuel : Nat) (mem mem' : Store) (b : Block)
    (eof : Bool) (rest : List (Block × Bool)) (st : ElfState) (r : ElfRun)
    (hprobe : elf32Probe m fuel mem b = some (.download st mem')) (hdis : DisjointFiles st.phdr)
    (hin : ∀ e, dataEnd ((b, eof) :: rest) = some e → ∀ p ∈ st.phdr, p.loadable → p.fileEnd ≤ e)
    (hstart : elfLoad m fuel mem ((b, eof) :: rest) = .left (.started r)) :
    r.mem = applyCopies (fileData (fileBytes ((b, eof) :: rest))) r.log mem' ∧
      Complete st.phdr r.log (fileBytes ((b, eof) :: rest)).length := by
  have hdone := elfLoad_done hprobe hdis hin
  rw [hstart] at hdone
  exact ⟨hdone.1.mem, hdone.2⟩

theorem disjointFiles_singleton (p : Elf32Phdr) : DisjointFiles [p] := by
  intro q hq q' hq' _ _ hne
  rw [List.mem_singleton] at hq hq'
  exact absurd (hq.trans hq'.symm) hne

theorem plainImage_started_complete :
    ∃ r, elfLoad smallMachine 1 (fun _ => 0) [(plainImage, true)] = .left (.started r) ∧
      Complete [plainSegment] r.log 88 := by
  have hprobe : ∃ st mem', elf32Probe smallMachine 1 (fun _ => 0) plainImage
      = some (.download st mem') ∧ st.phdr = [plainSegment] := ⟨_, _, rfl, by decide⟩
  obtain ⟨st, mem', hst, hphdr⟩ := hprobe
  have hrun : ∃ r, elfLoad smallMachine 1 (fun _ => 0) [(plainImage, true)] = .left (.started r) :=
    ⟨_, rfl⟩
  obtain ⟨r, hr⟩ := hrun
  have hcomplete := elfLoad_started_complete smallMachine 1 (fun _ => 0) mem' plainImage true [] st r
    hst (by rw [hphdr]; exact disjointFiles_singleton _)
    (by
      intro e he p hp _
      rw [hphdr, List.mem_singleton] at hp
      obtain rfl : plainImage.len = e := Option.some.inj he
      subst hp
      decide)
    hr
  rw [hphdr] at hcomplete
  exact ⟨r, hr, hcomplete.2⟩

/-- The plain image with the last two bytes of its segment missing. -/
def truncatedImage : Block :=
  ⟨(execHeader 1).toBytes ++ plainSegment.toBytes ++ [1, 2], fun _ => 0, 0x30000, by decide⟩

/-- Two segments that share the last two bytes of the file. -/
def sharedSegment : Elf32Phdr := ⟨ptLoad, 118, 0, 0x200000, 2, 2, 7, 0⟩

def sharingImage : Block :=
  ⟨(execHeader 2).toBytes ++ { plainSegment with pOffset := 116 }.toBytes ++ sharedSegment.toBytes ++
    [1, 2, 3, 4], fun _ => 0, 0x30000, by decide⟩

set_option maxRecDepth 2000 in
/-- A truncated image is started at the end of the file, and one with overlapping file ranges once
    the first of them has been read. -/
theorem elfLoad_starts_incomplete :
    (∃ r, elfLoad smallMachine 1 (fun _ => 0) [(truncatedImage, true)] = .left (.started r) ∧
      ¬ Complete (phdrTable truncatedImage) r.log truncatedImage.len) ∧
    ∃ r, elfLoad smallMachine 1 (fun _ => 0) [(sharingImage, true)] = .left (.started r) ∧
      ¬ Complete (phdrTable sharingImage) r.log sharingImage.len := by
  constructor
  · refine ⟨_, rfl, fun hcomplete => ?_⟩
    have hdone := hcomplete plainSegment (by decide) (by decide)
    exact absurd hdone.passed (by decide)
  · have hrun : ∃ r, elfLoad smallMachine 1 (fun _ => 0) [(sharingImage, true)]
        = .left (.started r) ∧ r.log = [⟨0x100000, 116, 4⟩] := ⟨_, rfl, rfl⟩
    obtain ⟨r, hr, hlog⟩ := hrun
    refine ⟨r, hr, fun hcomplete => ?_⟩
    have hdone := hcomplete sharedSegment (by decide) (by decide)
    have hfirst := hdone.copied 0 (by decide)
    rw [hlog, copied_singleton] at hfirst
    exact absurd hfirst.1 (by decide)

/-! ## The image a file describes -/

/-- The program headers of a file. -/
def imagePhdrs (F : List UInt8) : List Elf32Phdr :=
  let e := Elf32Ehdr.read (fileData F)
  (List.range e.ePhnum.toNat).map (fun i =>
    Elf32Phdr.read (fun k => fileData F (e.ePhoff.toNat + sizeofPhdr * i + k)))

/-- Byte `k` of a segment once it is loaded. -/
def imageByte (F : List UInt8) (p : Elf32Phdr) (k : Nat) : UInt8 :=
  if k < p.pFilesz.toNat then fileData F (p.pOffset.toNat + k) else 0

/-- No `PT_LOAD` segment shares memory with one that is read from the file. -/
def DisjointMemory (ps : List Elf32Phdr) : Prop :=
  ∀ p ∈ ps, ∀ q ∈ ps, p.loadable → q.pType = ptLoad → p ≠ q →
    ∀ j < p.pMemsz.toNat, ∀ k < q.pMemsz.toNat, p.pPaddr.toNat + j ≠ q.pPaddr.toNat + k

/-- The file part of a segment fits the memory part, and that fits the address space. -/
def Elf32Phdr.fitsMemory (p : Elf32Phdr) : Prop :=
  p.pFilesz.toNat ≤ p.pMemsz.toNat ∧ p.pPaddr.toNat + p.pMemsz.toNat ≤ 2 ^ 32

/-- The first block of a file. -/
def firstBlock (blocks : List Block) (last : Block) : Block := (blocks.head?).getD last

/-- The first block holds the ELF header's program header table. -/
def holdsHeaders (b : Block) : Prop :=
  (Elf32Ehdr.read b.data).ePhoff.toNat + sizeofPhdr * (Elf32Ehdr.read b.data).ePhnum.toNat ≤ b.len

/-- The table read from a first block that holds the headers is that of the file. -/
theorem phdrTable_eq_imagePhdrs {after : List UInt8} (hlen : sizeofEhdr ≤ b.len)
    (h : holdsHeaders b) : phdrTable b = imagePhdrs (b.bytes ++ after) := by
  have hdata : ∀ i < b.len, b.data i = fileData (b.bytes ++ after) i := by
    intro i hi
    simpa using data_eq_fileData b [] after hi
  have hehdr : Elf32Ehdr.read b.data = Elf32Ehdr.read (fileData (b.bytes ++ after)) :=
    Elf32Ehdr.read_congr (fun i hi => hdata i (by omega))
  have hshort : b.len + 512 ≤ 2 ^ 32 := b.short
  unfold holdsHeaders at h
  unfold phdrTable imagePhdrs
  rw [← hehdr]
  refine List.map_congr_left (fun i hi => read_congr (fun k hk => ?_))
  have hi' := List.mem_range.mp hi
  simp only [sizeofPhdr] at h hk ⊢
  rw [Nat.mod_eq_of_lt (by omega), hdata _ (by omega)]

theorem elf32Probe_len (h : elf32Probe m fuel mem b = some (.download st mem')) : sizeofEhdr ≤ b.len := by
  by_contra hlt
  rw [elf32Probe, if_pos (by omega)] at h
  cases h

/-- Zeroing leaves zeros alone, and the tail of a prepared segment is zero. -/
theorem prepSegment_zero {start mid end_ : Nat} (h : prepSegment m mem start mid end_ = .ok mem') :
    (∀ a, mem a = 0 → mem' a = 0) ∧ ∀ a < 2 ^ 32, mid ≤ a → a < end_ → mem' a = 0 := by
  obtain ⟨-, -, -, -, rfl⟩ := prepSegment_ok h
  refine ⟨fun a ha => ?_, fun a ha hlo hhi => ?_⟩
  · split
    · rw [memset_apply, ha, ite_self]
    · exact ha
  · rw [if_pos (by omega), memset_apply, above_eq_sub hlo ha, if_pos (by omega)]

theorem prepLoads_zero {ps : List Elf32Phdr} :
    ∀ {ns ns' : ElfNotes} {mem mem' : Store}, prepLoads m ps ns mem = .ok (ns', mem') →
      (∀ a, mem a = 0 → mem' a = 0) ∧
      ∀ p ∈ ps, p.pType = ptLoad → ∀ a < 2 ^ 32, p.mid ≤ a → a < p.fin → mem' a = 0 := by
  induction ps with
  | nil =>
    intro ns ns' mem mem' h
    obtain ⟨-, rfl⟩ := h
    exact ⟨fun a ha => ha, fun p hp => by cases hp⟩
  | cons q qs ih =>
    intro ns ns' mem mem' h
    rw [prepLoads] at h
    split at h
    · next hq =>
        obtain ⟨hkeep, hzero⟩ := ih h
        exact ⟨hkeep, List.forall_mem_cons.mpr ⟨fun hload => absurd hload hq, hzero⟩⟩
    split at h
    · cases h
    next mem1 hprep =>
    obtain ⟨hkeep1, hzero1⟩ := prepSegment_zero hprep
    obtain ⟨hkeep, hzero⟩ := ih h
    exact ⟨fun a ha => hkeep a (hkeep1 a ha),
      List.forall_mem_cons.mpr ⟨fun _ a ha hlo hhi => hkeep a (hzero1 a ha hlo hhi), hzero⟩⟩

theorem elf32Probe_zero
    (h : elf32Probe m fuel mem b = some (.download st mem')) (p : Elf32Phdr) (hp : p ∈ st.phdr)
    (hload : p.pType = ptLoad) (hfit : p.fitsMemory) {k : Nat} (hk : k < p.pMemsz.toNat)
    (hfile : p.pFilesz.toNat ≤ k) : mem' (p.pPaddr.toNat + k) = 0 := by
  obtain ⟨-, ns, -, -, hprep, -⟩ := elf32Probe_download h
  obtain ⟨mem1, mem2, hok⟩ := prepLoads_ok hprep p hp hload
  have hmid := (prepSegment_ok hok).1
  have hmemsz := p.pMemsz.toNat_lt
  obtain ⟨-, hend⟩ := hfit
  unfold mid fin at hmid
  -- a segment that ends at `2^32` has no tail, or `mid` would be above `end`
  have hlt : p.pPaddr.toNat + p.pMemsz.toNat < 2 ^ 32 := by omega
  refine (prepLoads_zero hprep).2 p hp hload _ (by omega) ?_ ?_
  · rw [mid, Nat.mod_eq_of_lt (by omega)]
    omega
  · rw [fin, Nat.mod_eq_of_lt hlt]
    omega

/-- The memory of a complete load is the image. Every copy that reaches a byte of a segment comes
    from that segment, since no other that is read from the file shares memory with it. -/
theorem complete_image {F : List UInt8} {mem0 : Store} {ps : List Elf32Phdr} {ns : ElfNotes}
    {r : ElfRun} {size : Nat} (hr : r.Holds (fileData F) mem0 ps ns)
    (hcomplete : Complete ps r.log size) (hmem : DisjointMemory ps)
    (hfit : ∀ p ∈ ps, p.pType = ptLoad → p.fitsMemory)
    (hzero : ∀ p ∈ ps, p.pType = ptLoad → ∀ k < p.pMemsz.toNat, p.pFilesz.toNat ≤ k →
      mem0 (p.pPaddr.toNat + k) = 0) :
    ∀ p ∈ ps, p.pType = ptLoad → ∀ k < p.pMemsz.toNat, r.mem (p.pPaddr.toNat + k) = imageByte F p k := by
  intro p hp hload k hk
  have hpfit := hfit p hp hload
  have haddr : p.pPaddr.toNat + k < 2 ^ 32 := by have := hpfit.2; omega
  have honly : ∀ x, Copied r.log (p.pPaddr.toNat + k) x →
      k < p.pFilesz.toNat ∧ x = p.pOffset.toNat + k := by
    intro x hx
    obtain ⟨q, hq, hqload, j, hj, ha, rfl⟩ := hr.sound _ x haddr hx
    have hqfit := hfit q hq hqload.1
    have hqk : p.pPaddr.toNat + k = q.pPaddr.toNat + j := by
      rw [ha, addr, Nat.mod_eq_of_lt]
      have := hqfit.1
      have := hqfit.2
      omega
    by_cases hqp : q = p
    · subst hqp
      obtain rfl : k = j := by omega
      exact ⟨hj, rfl⟩
    · have := hqfit.1
      exact absurd hqk.symm (hmem q hq p hp hqload hload hqp j (by omega) k hk)
  rw [hr.mem, imageByte]
  by_cases hfile : k < p.pFilesz.toNat
  · have hloadable : p.loadable := ⟨hload, fun h0 => by rw [h0] at hfile; exact by cases hfile⟩
    have hcopied := (hcomplete p hp hloadable).copied k hfile
    rw [addr, Nat.mod_eq_of_lt haddr] at hcopied
    rw [if_pos hfile]
    exact applyCopies_of_hit _ _ _ _ _ ⟨_, hcopied⟩ (fun x hx => by rw [(honly x hx).2])
  · rw [if_neg hfile, applyCopies_of_miss _ _ _ _ (fun x hx => hfile (honly x hx).1)]
    exact hzero p hp hload k hk (by omega)

/-- With the end-of-file flag on the last block only, all the data arrives before it. -/
theorem dataEnd_flagged (blocks : List Block) (last : Block) :
    dataEnd (flagged blocks last) = some (fileBytes (flagged blocks last)).length := by
  induction blocks with
  | nil => simp [flagged, dataEnd, fileBytes, Block.len]
  | cons b bs ih =>
    rw [show flagged (b :: bs) last = (b, false) :: flagged bs last from rfl, dataEnd, ih]
    simp [fileBytes, Block.len]

theorem flagged_eq_cons (blocks : List Block) (last : Block) :
    ∃ eof rest, flagged blocks last = (firstBlock blocks last, eof) :: rest := by
  cases blocks with
  | nil => exact ⟨true, [], rfl⟩
  | cons b bs => exact ⟨false, flagged bs last, rfl⟩

/-- **A file is loaded as it describes itself, however it is cut.** For every `ET_EXEC` image without
    a checksum note: if the file ranges of the segments are disjoint and lie in the file, no
    `PT_LOAD` segment shares memory with one that is read from the file, and the segments fit the
    address space, then the image is started by the last block, with every segment's memory holding
    the file's bytes followed by zeros. -/
theorem elfLoad_image (m : Machine) (fuel : Nat) (mem mem' : Store) (blocks : List Block)
    (last : Block) (st : ElfState)
    (hprobe : elf32Probe m fuel mem (firstBlock blocks last) = some (.download st mem'))
    (hexec : (Elf32Ehdr.read (firstBlock blocks last).data).eType = etExec)
    (hheaders : holdsHeaders (firstBlock blocks last))
    (hnotes : st.notes.checkIpChecksum = false)
    (hdis : DisjointFiles (imagePhdrs (fileBytes (flagged blocks last))))
    (hin : ∀ p ∈ imagePhdrs (fileBytes (flagged blocks last)), p.loadable →
      p.fileEnd ≤ (fileBytes (flagged blocks last)).length)
    (hmem : DisjointMemory (imagePhdrs (fileBytes (flagged blocks last))))
    (hfit : ∀ p ∈ imagePhdrs (fileBytes (flagged blocks last)), p.pType = ptLoad → p.fitsMemory) :
    ∃ r, elfLoad m fuel mem (flagged blocks last) = .left (.started r) ∧
      ∀ p ∈ imagePhdrs (fileBytes (flagged blocks last)), p.pType = ptLoad →
        ∀ k < p.pMemsz.toNat,
          r.mem (p.pPaddr.toNat + k) = imageByte (fileBytes (flagged blocks last)) p k := by
  obtain ⟨eof, rest, hcut⟩ := flagged_eq_cons blocks last
  have hend := dataEnd_flagged blocks last
  rw [hcut] at hdis hin hmem hfit hend ⊢
  generalize hfirst : firstBlock blocks last = b at *
  have hphdr : st.phdr = imagePhdrs (fileBytes ((b, eof) :: rest)) := by
    rw [elf32Probe_exec hprobe hexec]
    exact phdrTable_eq_imagePhdrs (elf32Probe_len hprobe) hheaders
  rw [← hphdr] at hdis hin hmem hfit ⊢
  have hdone := elfLoad_done hprobe hdis (fun e he => by
    rw [hend, Option.some.injEq] at he
    rw [← he]
    exact hin)
  generalize elfLoad m fuel mem ((b, eof) :: rest) = res at hdone ⊢
  rcases res with l | _ | (r | _ | _)
  · rw [RunDone, hend] at hdone
    cases hdone
  · exact hdone.elim
  · refine ⟨r, rfl, complete_image hdone.1 hdone.2 hmem hfit ?_⟩
    intro p hp hload k hk hfile
    exact elf32Probe_zero hprobe p hp hload (hfit p hp hload) hk hfile
  · exact absurd hnotes (by rw [hdone]; simp)
  · exact hdone.elim

/-- What the truncated image lacks. -/
def plainRest : Block := ⟨[3, 4], fun _ => 0, 0x30000, by decide⟩

theorem plainImage_loaded :
    ∃ r, elfLoad smallMachine 1 (fun _ => 0) (flagged [truncatedImage] plainRest) = .left (.started r) ∧
      r.mem 0x100003 = 4 ∧ r.mem 0x100004 = 0 := by
  have htable : imagePhdrs (fileBytes (flagged [truncatedImage] plainRest)) = [plainSegment] := by decide
  have hprobe : ∃ st mem', elf32Probe smallMachine 1 (fun _ => 0) truncatedImage
      = some (.download st mem') ∧ st.notes.checkIpChecksum = false := ⟨_, _, rfl, rfl⟩
  obtain ⟨st, mem', hst, hnotes⟩ := hprobe
  obtain ⟨r, hr, himage⟩ := elfLoad_image smallMachine 1 (fun _ => 0) mem' [truncatedImage] plainRest st
    hst (by decide) (by unfold holdsHeaders; decide) hnotes
    (by rw [htable]; exact disjointFiles_singleton _)
    (by rw [htable]; decide)
    (by
      rw [htable]
      intro p hp q hq _ _ hne
      rw [List.mem_singleton] at hp hq
      exact absurd (hp.trans hq.symm) hne)
    (by
      rw [htable]
      intro p hp _
      rw [List.mem_singleton] at hp
      subst hp
      exact ⟨by decide, by decide⟩)
  rw [htable] at himage
  have hbyte := himage plainSegment (by simp) rfl
  exact ⟨r, hr, hbyte 3 (by decide), hbyte 4 (by decide)⟩

/-- A segment read from the file, and one without a file part at the same address. -/
def bssSegment : Elf32Phdr := ⟨ptLoad, 0, 0, 0x100000, 0, 4, 7, 0⟩

def bssImage : Block :=
  ⟨(execHeader 2).toBytes ++ { plainSegment with pOffset := 116, pMemsz := 4 }.toBytes ++
    bssSegment.toBytes ++ [1, 2, 3, 4], fun _ => 0, 0x30000, by decide⟩

set_option maxRecDepth 2000 in
/-- The only segment read from the file overlaps one that is all zeros: what is loaded there are the
    file's bytes. -/
theorem bssImage_not_zero :
    imagePhdrs bssImage.bytes = [{ plainSegment with pOffset := 116, pMemsz := 4 }, bssSegment] ∧
      (Elf32Ehdr.read bssImage.data).eType = etExec ∧ holdsHeaders bssImage ∧
      DisjointFiles (imagePhdrs bssImage.bytes) ∧
      (∀ p ∈ imagePhdrs bssImage.bytes, p.loadable → p.fileEnd ≤ bssImage.len) ∧
      (∀ p ∈ imagePhdrs bssImage.bytes, ∀ q ∈ imagePhdrs bssImage.bytes, p.loadable → q.loadable →
        p = q) ∧
      ∃ st mem' r, elf32Probe smallMachine 1 (fun _ => 0) bssImage = some (.download st mem') ∧
        st.notes.checkIpChecksum = false ∧
        elfLoad smallMachine 1 (fun _ => 0) [(bssImage, true)] = .left (.started r) ∧
        r.mem bssSegment.pPaddr.toNat = 1 := by
  have htable : imagePhdrs bssImage.bytes
      = [{ plainSegment with pOffset := 116, pMemsz := 4 }, bssSegment] := by decide
  have honly : ∀ p ∈ imagePhdrs bssImage.bytes, ∀ q ∈ imagePhdrs bssImage.bytes, p.loadable →
      q.loadable → p = q := by
    decide
  refine ⟨htable, by decide, by unfold holdsHeaders; decide, ?_, by rw [htable]; decide, honly,
    _, _, _, rfl, rfl, rfl, rfl⟩
  intro p hp q hq hpload hqload hne
  exact absurd (honly p hp q hq hpload hqload) hne

/-! ## What is left alone -/

theorem prepLoads_frame {ps : List Elf32Phdr} {a : Nat} (ha : a < 2 ^ 32)
    (hout : ∀ p ∈ ps, p.pType = ptLoad → ¬ (p.mid ≤ a ∧ a < p.fin)) :
    ∀ {ns ns' : ElfNotes} {mem mem' : Store}, prepLoads m ps ns mem = .ok (ns', mem') → mem' a = mem a := by
  induction ps with
  | nil =>
    rintro ns ns' mem mem' ⟨⟩
    rfl
  | cons q qs ih =>
    intro ns ns' mem mem' h
    obtain ⟨hq, hqs⟩ := List.forall_mem_cons.mp hout
    rw [prepLoads] at h
    split at h
    · exact ih hqs h
    next hload =>
    split at h
    · cases h
    next mem1 hprep =>
    obtain ⟨hle, -, -, -, rfl⟩ := prepSegment_ok hprep
    rw [ih hqs h]
    split
    · have hmiss := hq (not_not.mp hload)
      have hmid : q.mid < 2 ^ 32 := Nat.mod_lt _ (by decide)
      have hfin : q.fin < 2 ^ 32 := Nat.mod_lt _ (by decide)
      rw [memset_apply, if_neg]
      unfold above wsub
      omega
    · rfl

/-- **Etherboot survives the load.** For every accepted image whose segments end below `2^32`, and every run of
    `load_block` in which it is started: if the file ranges are disjoint and lie in the data received, the load
    has stored nothing in Etherboot or its heap. The loader's own variables are not in `mem`. -/
theorem elfLoad_frame {eof : Bool} {rest : List (Block × Bool)} {r : ElfRun}
    (hprobe : elf32Probe m fuel mem b = some (.download st mem')) (hdis : DisjointFiles st.phdr)
    (hin : ∀ e, dataEnd ((b, eof) :: rest) = some e → ∀ p ∈ st.phdr, p.loadable → p.fileEnd ≤ e)
    (hends : ∀ p ∈ st.phdr, p.pType = ptLoad → p.unwrapped)
    (hstart : elfLoad m fuel mem ((b, eof) :: rest) = .left (.started r)) {a : Nat}
    (ha : m.text.toNat ≤ a ∧ a < m.end_.toNat ∨ m.heapPtr.toNat ≤ a ∧ a < m.heapBot.toNat) :
    r.mem a = mem a := by
  have hlt : a < 2 ^ 32 := by
    have := m.end_.toNat_lt
    have := m.heapBot.toNat_lt
    omega
  have hdone := elfLoad_done hprobe hdis hin
  rw [hstart] at hdone
  -- the checks of `prep_segment` mean what they say where no sum wraps
  have hout : ∀ p ∈ st.phdr, p.pType = ptLoad →
      ¬ (p.pPaddr.toNat ≤ a ∧ a < p.pPaddr.toNat + p.pMemsz.toNat) ∧ p.pFilesz.toNat ≤ p.pMemsz.toNat := by
    intro p hp hload
    obtain ⟨mem1, mem2, hok⟩ := elf32Probe_prepared hprobe p hp hload
    have hsafe := (safe_iff_of_prepared hok).mpr (.inl (hends p hp hload))
    refine ⟨fun hmem => ?_, hsafe.filesz_le⟩
    have htext := hsafe.etherboot (a - p.pPaddr.toNat) (by omega)
    have hheap := hsafe.heap (a - p.pPaddr.toNat) (by omega)
    omega
  obtain ⟨-, ns, -, -, hprep, -⟩ := elf32Probe_download hprobe
  rw [hdone.1.mem, applyCopies_of_miss, prepLoads_frame hlt (fun p hp hload => ?_) hprep]
  · have := hout p hp hload
    have := hends p hp hload
    unfold unwrapped at this
    unfold mid fin
    omega
  · intro x hx
    obtain ⟨p, hp, hload, j, hj, hja, -⟩ := hdone.1.sound _ x hlt hx
    have := hout p hp hload.1
    have := hends p hp hload.1
    unfold unwrapped at this
    unfold addr at hja
    omega

theorem plainImage_frame :
    ∃ r, elfLoad smallMachine 1 (fun _ => 5) [(plainImage, true)] = .left (.started r) ∧
      r.mem 0x20000 = 5 ∧ r.mem 0x5ffff = 5 := by
  have hrun : ∃ st mem' r, elf32Probe smallMachine 1 (fun _ => 5) plainImage = some (.download st mem') ∧
      st.phdr = [plainSegment] ∧
      elfLoad smallMachine 1 (fun _ => 5) [(plainImage, true)] = .left (.started r) :=
    ⟨_, _, _, rfl, by decide, rfl⟩
  obtain ⟨st, mem', r, hst, hphdr, hr⟩ := hrun
  have hframe := @elfLoad_frame _ _ _ _ _ _ true [] r hst (by rw [hphdr]; exact disjointFiles_singleton _)
    (by rintro e ⟨⟩; rw [hphdr]; decide) (by rw [hphdr]; unfold unwrapped; decide) hr
  exact ⟨r, hr, hframe (.inl (by decide)), hframe (.inr (by decide))⟩

end Osloader
