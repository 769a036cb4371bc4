import Etherboot.Net.Address

set_option autoImplicit false

/-! # The search for an image on a disk (`url_file` and `disk_load` in `core/disk.c`)

A buffer of 16K is read from the disk, and every 16th byte of it is taken for the begin of an image, from
the middle of the buffer first to one end and then to the other. A pass ends when the offset is equal to an
end that is a multiple of 16. The buffer begins 8K before the byte asked for only if that byte is among the
first 8K of the disk; otherwise it begins at its sector. `searchesRight_iff` says which offsets this suits.

The loop of `url_file` that probes for the drive is left out. -/

namespace Disk

open Text (bytes strtoul)

/-- `SECTOR_SIZE` -/
def sectorSize : Nat := 512

/-- `sizeof(buffer)` in `disk_load`. -/
def bufferLen : Nat := 32 * sectorSize

/-! ## The URL -/

inductive DriverType where
  | disk
  | floppy
  deriving DecidableEq, Repr

/-- What `url_file` takes from a name. -/
structure Url where
  type : DriverType
  drive : Nat
  diskOffset : Nat
  direction : Int
  deriving DecidableEq, Repr

/-- The drive, and an offset with its direction. -/
def urlDrive (type : DriverType) (name : List UInt8) : Option Url :=
  let (drive, name) := strtoul 0 name
  match name with
  | [] => some ⟨type, drive, 0, 1⟩
  | c :: name =>
    if c = 43 ∨ c = 45 then
      let (diskOffset, name) := strtoul 0 name
      if name = [] then some ⟨type, drive, diskOffset, if c = 45 then -1 else 1⟩ else none
    else none

def urlFile (name : List UInt8) : Option Url :=
  if (bytes "disk").isPrefixOf name then urlDrive .disk (name.drop 4)
  else if (bytes "floppy").isPrefixOf name then urlDrive .floppy (name.drop 6)
  else none

/-! ## The passes -/

/-- A number in `unsigned int`. -/
def unsigned (i : Int) : Nat := (i % 2 ^ 32).toNat

/-- A call of `probe_image`: the offset in the buffer, and the length that is passed with it. -/
structure Probe where
  offset : Nat
  len : Nat
  deriving DecidableEq, Repr

/-- The probe at an offset of a buffer with `len` bytes. -/
def probeAt (len offset : Nat) : Probe := ⟨offset, unsigned (len - offset)⟩

/-- `end` in `probe_buffer`. -/
def passEnd (len : Nat) (increment : Int) : Nat := if increment > 0 then len - sectorSize else 0

/-- `probe_buffer`: the probes, whether one has found an image, and the last offset. -/
def probeBuffer (probeImage : Probe → Bool) (len : Nat) (increment : Int) :
    Nat → Nat → Option (List Probe × Bool × Nat)
  | 0, _ => none
  | fuel + 1, offset =>
    let offset := unsigned (offset + increment)
    let probe := probeAt len offset
    if probeImage probe = true ∨ offset = passEnd len increment then
      some ([probe], probeImage probe, offset)
    else (probeBuffer probeImage len increment fuel offset).map (fun r => (probe :: r.1, r.2))

/-- The probes of `disk_load`, with the sectors read. -/
def searchImage (probeImage : Probe → Bool) (fuel : Nat) (u : Url) : Option (List Probe × Bool) :=
  let increment : Int := if u.direction < 0 then -16 else 16
  let offset := unsigned ((bufferLen / 2 + u.diskOffset % 512 : Nat) - increment)
  match probeBuffer probeImage bufferLen increment fuel offset with
  | none => none
  | some (ps, true, _) => some (ps, true)
  | some (ps, false, offset) =>
    (probeBuffer probeImage bufferLen (-increment) fuel offset).map (fun r => (ps ++ r.1, r.2.1))

/-- `block`, where the buffer begins. -/
def firstBlock (sectors diskOffset : Nat) : Nat :=
  let block := diskOffset / 512
  if 16 > block then sectors - 16 + block else block

/-- The byte of the disk that `disk_read_sectors` has put at an offset of the buffer. -/
def diskByte (sectors block offset : Nat) : Nat :=
  let sector := block + offset / 512
  (if sector ≥ sectors then sector - sectors else sector) * 512 + offset % 512

/-! ## What a search should do -/

/-- Every position is 16 bytes from the one before. -/
def Stepwise : List Nat → Prop
  | a :: b :: l => (b = a + 16 ∨ a = b + 16) ∧ Stepwise (b :: l)
  | _ => True

/-- The search on a disk without an image ends, begins at the byte asked for, goes on in steps, and
    looks at nothing but the buffer. -/
def SearchesRight (sectors : Nat) (u : Url) : Prop :=
  ∃ fuel p ps, searchImage (fun _ => false) fuel u = some (p :: ps, false) ∧
    diskByte sectors (firstBlock sectors u.diskOffset) p.offset = u.diskOffset % (sectors * 512) ∧
    Stepwise ((p :: ps).map Probe.offset) ∧ ∀ q ∈ p :: ps, q.offset + q.len = bufferLen

/-! ## One pass -/

theorem unsigned_of_lt {i : Int} (h0 : 0 ≤ i) (h : i < 2 ^ 32) : (unsigned i : Int) = i := by
  rw [unsigned, Int.emod_eq_of_lt h0 h, Int.toNat_of_nonneg h0]

theorem probeAt_inside {offset : Nat} (h : offset ≤ bufferLen) :
    (probeAt bufferLen offset).offset + (probeAt bufferLen offset).len = bufferLen := by
  have hlen : bufferLen = 16384 := rfl
  have := unsigned_of_lt (i := bufferLen - offset) (by omega) (by omega)
  dsimp only [probeAt]
  omega

section Pass

variable {increment : Int} (hinc : increment = 16 ∨ increment = -16)
include hinc

theorem probeBuffer_none {fuel offset : Nat} (hoff : offset % 16 ≠ 0) :
    probeBuffer (fun _ => false) bufferLen increment fuel offset = none := by
  induction fuel generalizing offset with
  | zero => rfl
  | succ fuel ih =>
    have hnext : unsigned (offset + increment) % 16 ≠ 0 := by
      unfold unsigned
      omega
    have hend : passEnd bufferLen increment % 16 = 0 := by
      rcases hinc with rfl | rfl <;> rfl
    rw [probeBuffer, if_neg, ih hnext]
    · rfl
    · rintro (h | h)
      · cases h
      · exact hnext (h ▸ hend)

theorem probeBuffer_ends {n fuel offset : Nat} (hfuel : n < fuel) (hoff : offset ≤ bufferLen)
    (hend : offset + (n + 1) * increment = passEnd bufferLen increment) :
    ∃ p ps, probeBuffer (fun _ => false) bufferLen increment fuel offset =
        some (p :: ps, false, passEnd bufferLen increment) ∧
      (p.offset : Int) = offset + increment ∧ (∀ q ∈ p :: ps, q.offset + q.len = bufferLen) ∧
      ∀ l, Stepwise (passEnd bufferLen increment :: l) → Stepwise ((p :: ps).map Probe.offset ++ l) := by
  have hle : passEnd bufferLen increment ≤ bufferLen := by
    rcases hinc with rfl | rfl <;> decide
  have hlen : bufferLen = 16384 := rfl
  induction n generalizing fuel offset with
  | zero =>
    obtain ⟨fuel, rfl⟩ := Nat.exists_eq_succ_of_ne_zero (Nat.ne_of_gt hfuel)
    have hnext : (unsigned (offset + increment) : Int) = offset + increment :=
      unsigned_of_lt (by omega) (by omega)
    have hlast : unsigned (offset + increment) = passEnd bufferLen increment := by omega
    refine ⟨probeAt bufferLen (unsigned (offset + increment)), [], ?_, hnext, ?_, ?_⟩
    · rw [probeBuffer, if_pos (Or.inr hlast), hlast]
    · intro q hq
      obtain rfl := List.mem_singleton.mp hq
      exact probeAt_inside (by omega)
    · intro l hl
      rw [hlast]
      exact hl
  | succ n ih =>
    obtain ⟨fuel, rfl⟩ := Nat.exists_eq_succ_of_ne_zero (Nat.ne_zero_of_lt hfuel)
    have hnext : (unsigned (offset + increment) : Int) = offset + increment := by
      rcases hinc with rfl | rfl <;> exact unsigned_of_lt (by omega) (by omega)
    have hother : unsigned (offset + increment) ≠ passEnd bufferLen increment := by
      rcases hinc with rfl | rfl <;> omega
    obtain ⟨p, ps, hrun, hp, hin, hsteps⟩ := @ih fuel (unsigned (offset + increment)) (by omega)
      (by rcases hinc with rfl | rfl <;> omega) (by rw [hnext, ← hend]; push_cast; ring)
    refine ⟨probeAt bufferLen (unsigned (offset + increment)), p :: ps, ?_, hnext, ?_, ?_⟩
    · rw [probeBuffer, if_neg (by simpa using hother), hrun]
      rfl
    · intro q hq
      rcases List.mem_cons.mp hq with rfl | hq
      · exact probeAt_inside (by rcases hinc with rfl | rfl <;> omega)
      · exact hin q hq
    · intro l hl
      refine ⟨?_, hsteps l hl⟩
      change p.offset = unsigned (offset + increment) + 16 ∨ unsigned (offset + increment) = p.offset + 16
      rcases hinc with rfl | rfl <;> omega

end Pass

/-! ## The search -/

theorem increment_cases (direction : Int) :
    (if direction < 0 then -16 else 16 : Int) = 16 ∨ (if direction < 0 then -16 else 16 : Int) = -16 := by
  split
  · exact Or.inr rfl
  · exact Or.inl rfl

/-- **Both passes.** From a multiple of 16 the search ends; it begins in the middle of the buffer. -/
theorem searchImage_ends (u : Url) (h16 : u.diskOffset % 16 = 0) :
    ∃ fuel p ps, searchImage (fun _ => false) fuel u = some (p :: ps, false) ∧
      p.offset = bufferLen / 2 + u.diskOffset % 512 ∧ Stepwise ((p :: ps).map Probe.offset) ∧
      ∀ q ∈ p :: ps, q.offset + q.len = bufferLen := by
  have hlen : bufferLen = 16384 := rfl
  obtain ⟨increment, hincrement⟩ : ∃ i : Int, i = if u.direction < 0 then -16 else 16 := ⟨_, rfl⟩
  have hinc : increment = 16 ∨ increment = -16 := hincrement ▸ increment_cases u.direction
  have hopp : -increment = 16 ∨ -increment = -16 := by omega
  obtain ⟨start, hstart⟩ : ∃ s, s = unsigned ((bufferLen / 2 + u.diskOffset % 512 : Nat) - increment) :=
    ⟨_, rfl⟩
  have hfirst : (start : Int) = 8192 + u.diskOffset % 512 - increment := by
    rw [hstart, unsigned_of_lt (by omega) (by omega)]
    omega
  have hup : passEnd bufferLen 16 = 15872 := rfl
  have hdown : passEnd bufferLen (-16) = 0 := rfl
  -- the first pass takes the steps from the middle to its end, the second one those across the buffer
  have hpass : ∃ n : Nat, n < 1024 ∧ start + (n + 1) * increment = passEnd bufferLen increment := by
    rcases hinc with rfl | rfl
    · exact ⟨(7680 - u.diskOffset % 512) / 16, by omega, by omega⟩
    · exact ⟨(8192 + u.diskOffset % 512) / 16, by omega, by omega⟩
  have hback : (passEnd bufferLen increment : Int) + ((991 : Nat) + 1) * -increment =
      passEnd bufferLen (-increment) := by
    rcases hinc with rfl | rfl <;> rfl
  obtain ⟨n, hn, hpass⟩ := hpass
  obtain ⟨p, ps, hrun, hp, hin, hsteps⟩ := probeBuffer_ends hinc hn (by omega) hpass
  obtain ⟨q, qs, hrun', hq, hin', hsteps'⟩ := probeBuffer_ends hopp (show 991 < 1024 by decide)
    (show passEnd bufferLen increment ≤ bufferLen by rcases hinc with rfl | rfl <;> decide) hback
  refine ⟨1024, p, ps ++ q :: qs, ?_, by omega, ?_, ?_⟩
  · rw [searchImage, ← hincrement, ← hstart, hrun]
    dsimp only
    rw [hrun']
    rfl
  · have hjoined := hsteps ((q :: qs).map Probe.offset) ⟨by omega, ?_⟩
    · rwa [← List.map_append] at hjoined
    · simpa using hsteps' [] trivial
  · intro r hr
    rcases List.mem_append.mp (show r ∈ (p :: ps) ++ (q :: qs) from hr) with hr | hr
    · exact hin r hr
    · exact hin' r hr

theorem searchImage_none (u : Url) (h16 : u.diskOffset % 16 ≠ 0) (fuel : Nat) :
    searchImage (fun _ => false) fuel u = none := by
  have hlen : bufferLen = 16384 := rfl
  have hinc := increment_cases u.direction
  rw [searchImage]
  rw [probeBuffer_none hinc]
  unfold unsigned
  omega

theorem probeBuffer_head {probeImage : Probe → Bool} {len fuel offset : Nat} {increment : Int}
    {r : List Probe × Bool × Nat} (h : probeBuffer probeImage len increment fuel offset = some r) :
    ∃ ps, r.1 = probeAt len (unsigned (offset + increment)) :: ps := by
  cases fuel with
  | zero => cases h
  | succ fuel =>
    rw [probeBuffer] at h
    split at h
    · cases h
      exact ⟨[], rfl⟩
    · obtain ⟨s, -, rfl⟩ := Option.map_eq_some_iff.mp h
      exact ⟨s.1, rfl⟩

theorem searchImage_first {u : Url} {fuel : Nat} {p : Probe} {ps : List Probe}
    (h : searchImage (fun _ => false) fuel u = some (p :: ps, false)) :
    p.offset = bufferLen / 2 + u.diskOffset % 512 := by
  have hlen : bufferLen = 16384 := rfl
  rw [searchImage] at h
  split at h
  · cases h
  · cases h
  · next qs offset hrun =>
    obtain ⟨ps₁, hhead⟩ := probeBuffer_head hrun
    obtain ⟨s, -, heq⟩ := Option.map_eq_some_iff.mp h
    obtain rfl : qs = _ := hhead
    obtain rfl := (List.cons.inj (Prod.mk.inj heq).1).1
    show unsigned _ = _
    unfold unsigned
    omega

/-- The middle of the buffer is the byte asked for if this is among the first 8K of the disk. -/
theorem diskByte_middle_iff {sectors : Nat} (hsectors : 32 ≤ sectors) (diskOffset : Nat) :
    diskByte sectors (firstBlock sectors diskOffset) (bufferLen / 2 + diskOffset % 512) =
      diskOffset % (sectors * 512) ↔ diskOffset < 8192 := by
  have hsector : (bufferLen / 2 + diskOffset % 512) / 512 = 16 := by
    have hlen : bufferLen = 16384 := rfl
    omega
  have hbyte : (bufferLen / 2 + diskOffset % 512) % 512 = diskOffset % 512 := by
    have hlen : bufferLen = 16384 := rfl
    omega
  have hmod : diskOffset % (sectors * 512) = diskOffset / 512 % sectors * 512 + diskOffset % 512 := by
    rw [Nat.mul_comm, Nat.mod_mul, Nat.mul_comm, Nat.add_comm]
  rw [diskByte, firstBlock, hsector, hbyte, hmod]
  by_cases hlow : 16 > diskOffset / 512
  · rw [if_pos hlow, if_pos (by omega), Nat.mod_eq_of_lt (show diskOffset / 512 < sectors by omega)]
    omega
  · rw [if_neg hlow]
    refine iff_of_false (fun heq => ?_) (by omega)
    -- a sector further on, also with the wrap at the end of the disk
    rcases Nat.lt_or_ge (diskOffset / 512) sectors with hlt | hge
    · rw [Nat.mod_eq_of_lt hlt] at heq
      split at heq <;> omega
    · have hpart : diskOffset / 512 % sectors + sectors ≤ diskOffset / 512 := by
        have hsplit := Nat.mod_add_div (diskOffset / 512) sectors
        have hone : 1 ≤ diskOffset / 512 / sectors := Nat.div_pos hge (by omega)
        have := Nat.mul_le_mul_left sectors hone
        omega
      split at heq <;> omega

theorem searchesRight_iff {sectors : Nat} (hsectors : 32 ≤ sectors) (u : Url) :
    SearchesRight sectors u ↔ u.diskOffset % 16 = 0 ∧ u.diskOffset < 8192 := by
  have hmiddle := diskByte_middle_iff hsectors u.diskOffset
  constructor
  · rintro ⟨fuel, p, ps, hrun, hbyte, -⟩
    rw [searchImage_first hrun, hmiddle] at hbyte
    refine ⟨Decidable.byContradiction (fun h16 => ?_), hbyte⟩
    rw [searchImage_none u h16] at hrun
    cases hrun
  · rintro ⟨h16, hlow⟩
    obtain ⟨fuel, p, ps, hrun, hp, hsteps, hin⟩ := searchImage_ends u h16
    exact ⟨fuel, p, ps, hrun, hp ▸ hmiddle.mpr hlow, hsteps, hin⟩

/-- **Where a search goes right.** For every URL and every disk of 32 sectors or more: exactly if the offset
    is a multiple of 16 among the first 8K. -/
theorem url_searchesRight_iff (name : List UInt8) {sectors : Nat} (hsectors : 32 ≤ sectors) :
    (∀ u, urlFile name = some u → SearchesRight sectors u) ↔
      ∀ u, urlFile name = some u → u.diskOffset % 16 = 0 ∧ u.diskOffset < 8192 :=
  forall_congr' (fun u => imp_congr_right (fun _ => searchesRight_iff hsectors u))

/-- `disk1-512`, on a disk of 63 sectors -/
theorem disk1_searchesRight : SearchesRight 63 ⟨.disk, 1, 512, -1⟩ :=
  (url_searchesRight_iff (bytes "disk1-512") (by decide : 32 ≤ 63)).mpr
    (fun u hu => by
      cases hu.symm.trans (show _ = some ⟨.disk, 1, 512, -1⟩ by decide +kernel)
      decide)
    _ (by decide +kernel)

/-- With `disk0+8` the search does not end, and with `disk0+8192` it begins at another byte. -/
theorem disk0_not_searchesRight :
    urlFile (bytes "disk0+8") = some ⟨.disk, 0, 8, 1⟩ ∧ ¬ SearchesRight 2880 ⟨.disk, 0, 8, 1⟩ ∧
      urlFile (bytes "disk0+8192") = some ⟨.disk, 0, 8192, 1⟩ ∧ ¬ SearchesRight 2880 ⟨.disk, 0, 8192, 1⟩ := by
  refine ⟨by decide +kernel, fun h => ?_, by decide +kernel, fun h => ?_⟩
  · exact absurd ((searchesRight_iff (by decide) _).mp h).1 (by decide)
  · exact absurd ((searchesRight_iff (by decide) _).mp h).2 (by decide)

end Disk
