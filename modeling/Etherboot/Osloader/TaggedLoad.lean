import Etherboot.Osloader.TaggedSafety

set_option autoImplicit false

/-! # Loading a tagged image from blocks

The invariant `Loading` says that the walk in memory is where the file is: what the remaining segments will
make of memory, as the file goes on, is always the same. Headers and pieces are taken until the block is
empty, and the image is started as soon as nothing is missing, wherever the blocks end. -/

namespace Tagged

open Memory Osloader ImgHeader Run

/-! ## The image -/

/-- How many bytes the segments have in the file. -/
def imageLength (hs : List SegHeader) : Nat := (hs.map (·.imglength.toNat)).sum

/-- **The loaded image.** The bytes of the file from `p` on are written to the segments' addresses, in order. -/
def loadSegments (file : Nat → UInt8) : Nat → List SegHeader → Store → Store
  | _, [], mem => mem
  | p, h :: hs, mem =>
    loadSegments file (p + h.imglength.toNat) hs
      (memcpy mem h.loadaddr.toNat (fun k => file (p + k)) h.imglength.toNat)

/-! ## The invariant -/

/-- The loader in front of the segment headers `hs`. `goal` is what memory is to be in the end, and `whole` the
    length of the image. -/
structure Loading (data : Store) (lin : Nat) (file : Nat → UInt8) (goal : Store) (whole : Nat) (s : Run)
    (hs : List SegHeader) : Prop extends Walk data lin s hs where
  bytes : s.consumed + s.tctx.seglen + imageLength hs = whole
  goal : loadSegments file (s.consumed + s.tctx.seglen) hs
    (memcpy s.mem s.tctx.curaddr (fun k => file (s.consumed + k)) s.tctx.seglen) = goal

section Loading

variable {data : Store} {lin : Nat} {file : Nat → UInt8} {goal : Store} {whole : Nat} {s : Run}
  {hs : List SegHeader}

/-- The block, the flag for its end and the exit have no part in it. -/
theorem Loading.congr {s' : Run} (hl : Loading data lin file goal whole s hs) (hmem : s'.mem = s.mem)
    (htctx : s'.tctx = s.tctx) (hcons : s'.consumed = s.consumed) :
    Loading data lin file goal whole s' hs := by
  obtain ⟨⟨hkept, hlast, hnext, hplain, hapart, hsmall⟩, hbytes, hgoal⟩ := hl
  rw [← hmem] at hkept hgoal
  rw [← htctx] at hlast hnext hapart hsmall hbytes hgoal
  rw [← hcons] at hbytes hgoal
  exact ⟨⟨hkept, hlast, hnext, hplain, hapart, hsmall⟩, hbytes, hgoal⟩

theorem Loading.takeHeader (hlin : lin + 512 ≤ 2 ^ 32) {h : SegHeader}
    (hl : Loading data lin file goal whole s (h :: hs)) (hseg : s.tctx.seglen = 0) :
    Loading data lin file goal whole s.takeHeader hs ∧ s.takeHeader.exit = none := by
  have hbytes := hl.bytes
  have hgoal := hl.goal
  rw [hseg, Nat.add_zero, memcpy_zero] at hgoal
  obtain ⟨hheader, haddress⟩ := hl.toWalk.header hlin
  obtain ⟨hwalk, hexit⟩ := hl.toWalk.takeHeader hlin
  refine ⟨⟨hwalk, ?_, ?_⟩, hexit⟩
  · show s.consumed + s.header.imglength.toNat + imageLength hs = whole
    rw [hheader]
    rw [hseg, imageLength, List.map_cons, List.sum_cons] at hbytes
    rw [imageLength]
    omega
  · show loadSegments file (s.consumed + s.header.imglength.toNat) hs (memcpy s.mem
      (s.header.address s.tctx s.memsize) _ s.header.imglength.toNat) = goal
    rw [haddress, hheader]
    exact hgoal

theorem Loading.copy (hlin : lin + 512 ≤ 2 ^ 32) (hl : Loading data lin file goal whole s hs)
    (hdata : ∀ k < s.len, s.data k = file (s.consumed + k)) : Loading data lin file goal whole s.copy hs := by
  have hle := piece_le_seglen s
  have hlen : s.piece ≤ s.len := by
    rw [piece]
    split <;> omega
  have hsmall := hl.small
  refine ⟨hl.toWalk.copy hlin, ?_, ?_⟩
  · show s.consumed + s.piece + (s.tctx.seglen - s.piece) + imageLength hs = whole
    rw [Nat.add_assoc s.consumed, Nat.add_sub_cancel' hle]
    exact hl.bytes
  · show loadSegments file (s.consumed + s.piece + (s.tctx.seglen - s.piece)) hs
      (memcpy (memcpy s.mem s.tctx.curaddr s.data s.piece) ((s.tctx.curaddr + s.piece) % 2 ^ 32)
        (fun k => file (s.consumed + s.piece + k)) (s.tctx.seglen - s.piece)) = goal
    have hpiece : memcpy s.mem s.tctx.curaddr s.data s.piece =
        memcpy s.mem s.tctx.curaddr (fun k => file (s.consumed + k)) s.piece :=
      memcpy_congr (fun k hk => hdata k (Nat.lt_of_lt_of_le hk hlen))
    have hrest : (fun k => file (s.consumed + s.piece + k)) =
        fun k => (fun i => file (s.consumed + i)) (s.piece + k) := by
      funext k
      rw [Nat.add_assoc]
    rw [hpiece, hrest, memcpy_memcpy _ _ _ (by omega), Nat.add_assoc s.consumed, Nat.add_sub_cancel' hle]
    exact hl.goal

/-! ## A call -/

/-- Behind its return the machine does not move. -/
theorem run_ticks_exit (h : s.exit ≠ none) (n : Nat) : s.run (List.replicate n .tick) = s := by
  induction n with
  | zero => rfl
  | succ n ih =>
    have hturn : s.turn .tick = s := by rw [turn, if_neg h]
    show (s.turn .tick).run (List.replicate n .tick) = s
    rw [hturn, ih]

/-- What a call comes to. All the bytes have come, and the image is started with the last of them; or the
    block is used up. -/
def CallDone (data : Store) (lin : Nat) (file : Nat → UInt8) (goal : Store) (whole : Nat) (img : ImgHeader)
    (count fed : Nat) (s : Run) : Prop :=
  (whole ≤ fed ∧ s.exit = some (.started img.start) ∧ s.consumed = whole ∧ s.mem = goal) ∨
  (fed < whole ∧ s.exit = some .returned ∧ s.consumed = fed ∧ s.tctx.first = false ∧ s.tctx.img = img ∧
    ∃ hs, hs.length ≤ count ∧ Loading data lin file goal whole s hs)

/-- How many steps a call takes at most. -/
def Run.steps (s : Run) (count : Nat) : Nat :=
  2 * count + (if s.tctx.seglen ≠ 0 ∧ s.len ≠ 0 then 1 else 0) + 1

theorem Run.steps_le (s : Run) (count : Nat) : s.steps count ≤ 2 * count + 2 := by
  rw [steps]
  split <;> omega

/-- A call goes on until the image is started or the block is empty. -/
theorem run_call (hlin : lin + 512 ≤ 2 ^ 32) {n : Nat} (hl : Loading data lin file goal whole s hs)
    (hexit : s.exit = none) (hfirst : s.tctx.first = false)
    (hdata : ∀ k < s.len, s.data k = file (s.consumed + k)) (hn : s.steps hs.length ≤ n) :
    CallDone data lin file goal whole s.tctx.img hs.length (s.consumed + s.len)
      (s.run (List.replicate n .tick)) := by
  induction n generalizing s hs with
  | zero =>
    rw [steps] at hn
    omega
  | succ n ih =>
    have hrun : s.run (List.replicate (n + 1) .tick) = s.step.run (List.replicate n .tick) := by
      show (s.turn .tick).run _ = _
      rw [turn, if_pos hexit]
    have hbytes := hl.bytes
    have hgoal := hl.goal
    rw [hrun]
    rcases s.step_cases with ⟨hseg, hlast, heq⟩ | ⟨hseg, hlast, heq⟩ | ⟨hseg, hlen, heq⟩ |
      ⟨hseg, hlen, heq⟩
    · -- nothing is missing
      obtain rfl := hl.last.mpr hlast
      rw [hseg] at hbytes hgoal
      rw [heq, run_ticks_exit (fun h => by cases h)]
      refine Or.inl ⟨?_, rfl, hbytes, ?_⟩
      · have : s.consumed = whole := hbytes
        omega
      · exact hgoal
    · obtain ⟨h, hs, rfl⟩ := List.exists_cons_of_ne_nil (fun hnil => hl.last.mp hnil hlast)
      have htop : Loading data lin file goal whole s.top (h :: hs) := hl.congr rfl rfl rfl
      obtain ⟨htake, hnone⟩ := htop.takeHeader hlin hseg
      rw [heq]
      rcases ih htake hnone hfirst hdata (by
        rw [steps, List.length_cons] at hn
        have := steps_le s.top.takeHeader hs.length
        omega) with hdone | ⟨hmore, hret, hcons, hf, himg, hs', hlength, hrest⟩
      · exact Or.inl hdone
      · refine Or.inr ⟨hmore, hret, hcons, hf, himg, hs', ?_, hrest⟩
        rw [List.length_cons]
        omega
    · -- the block is empty
      rw [heq, run_ticks_exit (fun h => by cases h)]
      refine Or.inr ⟨by omega, rfl, ?_, hfirst, rfl, hs, Nat.le_refl _, hl.congr rfl rfl rfl⟩
      show s.consumed = s.consumed + s.len
      omega
    · have htop : Loading data lin file goal whole s.top hs := hl.congr rfl rfl rfl
      have hpiece : s.piece = if s.tctx.seglen > s.len then s.len else s.tctx.seglen := rfl
      have hsum : s.top.copy.consumed + s.top.copy.len = s.consumed + s.len := by
        show s.consumed + s.piece + (s.len - s.piece) = _
        split at hpiece <;> omega
      have hcall := ih (s := s.top.copy) (htop.copy hlin hdata) hexit hfirst (fun k hk => by
        have hk : k < s.len - s.piece := hk
        show s.data (s.piece + k) = file (s.consumed + s.piece + k)
        rw [hdata (s.piece + k) (by omega), Nat.add_assoc]) (by
        have hdone : ¬ (s.top.copy.tctx.seglen ≠ 0 ∧ s.top.copy.len ≠ 0) := by
          show ¬ (s.tctx.seglen - s.piece ≠ 0 ∧ s.len - s.piece ≠ 0)
          split at hpiece <;> omega
        rw [steps, if_pos ⟨hseg, hlen⟩] at hn
        rw [steps, if_neg hdone]
        omega)
      rw [hsum] at hcall
      rw [heq]
      exact hcall

end Loading

/-! ## Block after block -/

/-- The blocks come one after the other, each with `n` steps. -/
def schedule (n : Nat) (bs : List (Block × Bool)) : List Event :=
  bs.flatMap (fun b => .block b.1 b.2 :: List.replicate n .tick)

/-- The bytes of the blocks. -/
def fileOf (bs : List (Block × Bool)) : List UInt8 := bs.flatMap (fun b => b.1.bytes)

def byteOf (file : List UInt8) (k : Nat) : UInt8 := (file[k]?).getD 0

theorem run_started {s : Run} {how : Start} (h : s.exit = some (.started how)) (es : List Event) :
    s.run es = s := by
  induction es with
  | nil => rfl
  | cons e es ih =>
    have hturn : s.turn e = s := by
      cases e with
      | tick => rw [turn, if_neg (by simp [h])]
      | block b eof => rw [turn, if_neg (by simp [h])]
    show (s.turn e).run es = s
    rw [hturn, ih]

/-- The image of `whole` bytes is started with the last of them, with `goal` in memory, or the loader waits
    for more. -/
def Loaded (img : ImgHeader) (goal : Store) (whole length : Nat) (s : Run) : Prop :=
  if whole ≤ length then s.exit = some (.started img.start) ∧ s.consumed = whole ∧ s.mem = goal
  else s.exit = some .returned

section Blocks

variable {data : Store} {lin : Nat} {file : List UInt8} {goal : Store} {whole : Nat} {s : Run}

theorem data_of_block {b : Block} {rest : List UInt8} {p : Nat} (h : file.drop p = b.bytes ++ rest) {k : Nat}
    (hk : k < b.len) : b.data k = byteOf file (p + k) := by
  have hget : (file.drop p)[k]? = b.bytes[k]? := by
    rw [h, List.getElem?_append_left hk]
  rw [List.getElem?_drop] at hget
  rw [Block.data, byteOf, hget, List.getElem?_eq_getElem hk]
  rfl

theorem loaded_of_callDone {img : ImgHeader} {count fed n : Nat} {bs : List (Block × Bool)}
    (hcall : CallDone data lin (byteOf file) goal whole img count fed s) (hfed : fed ≤ file.length)
    (hnext : s.exit = some .returned → s.consumed = fed → s.tctx.first = false → s.tctx.img = img → fed < whole →
      ∀ hs, hs.length ≤ count → Loading data lin (byteOf file) goal whole s hs →
      Loaded img goal whole file.length (s.run (schedule n bs))) :
    Loaded img goal whole file.length (s.run (schedule n bs)) := by
  rcases hcall with ⟨hle, hexit, hcons, hmem⟩ | ⟨hlt, hexit, hcons, hfirst, himg, hs, hlength, hl⟩
  · rw [run_started hexit, Loaded, if_pos (by omega)]
    exact ⟨hexit, hcons, hmem⟩
  · exact hnext hexit hcons hfirst himg hlt hs hlength hl

theorem loaded_blocks (hlin : lin + 512 ≤ 2 ^ 32) {n : Nat} {bs : List (Block × Bool)} {hs : List SegHeader}
    (hl : Loading data lin (byteOf file) goal whole s hs) (hexit : s.exit = some .returned)
    (hfirst : s.tctx.first = false) (hmore : s.consumed < whole) (hfile : file.drop s.consumed = fileOf bs)
    (hfed : s.consumed ≤ file.length) (hn : 2 * hs.length + 2 ≤ n) :
    Loaded s.tctx.img goal whole file.length (s.run (schedule n bs)) := by
  induction bs generalizing s hs with
  | nil =>
    have hend : file.length ≤ s.consumed := List.drop_eq_nil_iff.mp hfile
    rw [Loaded, if_neg (by omega)]
    exact hexit
  | cons b bs ih =>
    have hlength := congrArg List.length hfile
    rw [List.length_drop, show fileOf (b :: bs) = b.1.bytes ++ fileOf bs from rfl,
      List.length_append] at hlength
    have hlen : b.1.len = b.1.bytes.length := rfl
    have henter : s.turn (.block b.1 b.2) =
        { s with data := b.1.data, len := b.1.len, eof := b.2, exit := none } := by
      rw [turn, if_pos hexit, enter, if_neg (by rw [hfirst]; decide)]
    have hrun : s.run (schedule n (b :: bs)) =
        ((s.turn (.block b.1 b.2)).run (List.replicate n .tick)).run (schedule n bs) := by
      rw [← run_append]
      rfl
    have hroom : s.consumed + b.1.len ≤ file.length := by omega
    have hbehind : file.drop (s.consumed + b.1.len) = fileOf bs := by
      rw [← List.drop_drop, hfile]
      exact List.drop_left
    rw [hrun, henter]
    have hcall : CallDone data lin (byteOf file) goal whole s.tctx.img hs.length (s.consumed + b.1.len) _ :=
      run_call (n := n) hlin (s := { s with data := b.1.data, len := b.1.len, eof := b.2, exit := none })
        (hl.congr rfl rfl rfl) rfl hfirst
        (fun k hk => data_of_block hfile hk) (Nat.le_trans (steps_le ..) hn)
    refine loaded_of_callDone hcall hroom (fun hret hcons hf himg hlt hs' hcount hl' => ?_)
    have hrest := ih hl' hret hf (hcons.symm ▸ hlt) (by rw [hcons]; exact hbehind) (hcons.symm ▸ hroom)
      (by omega)
    rw [himg] at hrest
    exact hrest

end Blocks

theorem Begins.loading {m : Machine} {memsize : UInt32} {mem : Store} {b : Block} {s t : Run}
    {hs : List SegHeader} {file : List UInt8} (h : Begins m memsize mem b s)
    (hheaders : Headers b.data (read b.data).size hs)
    (hplain : ∀ h ∈ hs, Plain (read b.data).linlocation h)
    (hdata : ∀ k < b.len, b.data k = byteOf file k) (htctx : t.tctx = { s.tctx with first := false })
    (hmem : t.mem = s.mem) (hcons : t.consumed = 512) :
    Loading b.data (read b.data).linlocation (byteOf file)
      (loadSegments (byteOf file) 512 hs
        (memcpy mem (read b.data).linlocation (byteOf file) 512)) (512 + imageLength hs) t hs := by
  have hlen := h.len
  have hseg : t.tctx.seglen = 0 := by rw [htctx, h.tctx]
  obtain ⟨hkept, hlast, hnext, hplain, hapart, hsmall⟩ := h.walk hheaders hplain
  refine ⟨⟨hmem ▸ hkept, ?_, ?_, hplain, ?_, ?_⟩, by rw [hcons, hseg], ?_⟩
  · rw [htctx]
    exact hlast
  · rw [htctx]
    exact hnext
  · rw [htctx]
    exact hapart
  · rw [htctx]
    exact hsmall
  · have hcopy : memcpy mem (read b.data).linlocation b.data 512 =
        memcpy mem (read b.data).linlocation (byteOf file) 512 :=
      memcpy_congr (fun k hk => hdata k (Nat.lt_of_lt_of_le hk hlen))
    rw [hseg, memcpy_zero, hcons, hmem, h.mem, hcopy]

/-- **Loading a tagged image.** The image has been accepted; its segment headers `hs` lie in the first 512
    bytes, the segments have absolute addresses, are apart from the header and not all empty. Then, however
    the file is cut into blocks, the image is started in the call that gets the last byte of the last
    segment, with just the bytes up to that one consumed, and memory holds the segments of the file, written
    in order. As long as that byte has not come, every call returns. -/
theorem tagged_download_loads (m : Machine) (memsize : UInt32) (mem : Store) (b : Block) (eof : Bool)
    (bs : List (Block × Bool)) (s : Run) (hs : List SegHeader) (n : Nat)
    (hprobe : taggedProbe m memsize mem b = .accepted s)
    (hheaders : Headers b.data (ImgHeader.read b.data).size hs)
    (hplain : ∀ h ∈ hs, Plain (ImgHeader.read b.data).linlocation h) (hsome : 0 < imageLength hs)
    (hn : 2 * hs.length + 2 ≤ n) :
    Loaded (ImgHeader.read b.data)
      (loadSegments (byteOf (fileOf ((b, eof) :: bs))) 512 hs
        (memcpy mem (ImgHeader.read b.data).linlocation (byteOf (fileOf ((b, eof) :: bs))) 512))
      (512 + imageLength hs) (fileOf ((b, eof) :: bs)).length (s.run (schedule n ((b, eof) :: bs))) := by
  have hbegin := taggedProbe_accepted hprobe
  have hlin := linlocation_lt (read b.data)
  generalize hfile : fileOf ((b, eof) :: bs) = file
  have hdata (k : Nat) (hk : k < b.len) : b.data k = byteOf file k := by
    have := data_of_block (p := 0) (show file.drop 0 = b.bytes ++ fileOf bs from hfile.symm) hk
    rw [Nat.zero_add] at this
    exact this
  have hlength : file.length = b.len + (fileOf bs).length := by
    rw [← hfile]
    exact List.length_append
  have hbehind : file.drop b.len = fileOf bs := by
    rw [← hfile]
    exact List.drop_left
  have hlen := hbegin.len
  have hrun : s.run (schedule n ((b, eof) :: bs)) =
      ((s.enter b eof).run (List.replicate n .tick)).run (schedule n bs) := by
    have hturn : s.turn (.block b eof) = s.enter b eof := by rw [turn, if_pos hbegin.exit]
    rw [← run_append, ← hturn]
    rfl
  have hskip : s.consumed + min 512 b.len = 512 := by
    rw [hbegin.consumed]
    omega
  have himg : s.tctx.img = read b.data := by rw [hbegin.tctx]
  rw [hrun, enter, if_pos (by rw [hbegin.tctx])]
  split
  · next hmore =>
    have hcall := run_call (n := n) hlin (hbegin.loading (t := { s with
        tctx := { s.tctx with first := false }, consumed := s.consumed + min 512 b.len,
        data := fun k => b.data (512 + k), len := b.len - 512, eof := eof, exit := none })
      hheaders hplain hdata rfl rfl hskip) rfl rfl (fun k hk => by
        have hk : k < b.len - 512 := hk
        show b.data (512 + k) = byteOf file (s.consumed + min 512 b.len + k)
        rw [hskip, hdata (512 + k) (by omega)]) (Nat.le_trans (steps_le ..) hn)
    have hfed : s.consumed + min 512 b.len + (b.len - 512) = b.len := by omega
    rw [hfed, himg] at hcall
    refine loaded_of_callDone hcall (by omega) (fun hret hcons hf himg hlt hs' hcount hl' => ?_)
    have hrest := loaded_blocks hlin hl' hret hf (hcons.symm ▸ hlt) (by rw [hcons]; exact hbehind)
      (hcons.symm ▸ (by omega)) (n := n) (by omega)
    rw [himg] at hrest
    exact hrest
  · next hexact =>
    rw [run_ticks_exit (fun h => by cases h)]
    have hall : b.len = 512 := by omega
    have hrest := loaded_blocks (n := n) hlin (hbegin.loading (t := { s with
        tctx := { s.tctx with first := false }, consumed := s.consumed + min 512 b.len,
        exit := some .returned }) hheaders hplain hdata rfl rfl hskip) rfl rfl (by
        show s.consumed + min 512 b.len < _
        omega) (by
        rw [hskip, ← hall, hbehind]) (by
        show s.consumed + min 512 b.len ≤ _
        omega) hn
    rw [himg] at hrest
    exact hrest

/-- The image with absolute addresses and two more blocks. The last byte is behind its end. -/
def absoluteBlocks : List (Block × Bool) :=
  [(absoluteImage, false), (⟨[5], fun _ => 0, 0, by decide⟩, false), (⟨[6, 7, 8], fun _ => 0, 0, by decide⟩, true)]

theorem absoluteImage_loads : ∃ s, taggedProbe smallMachine 0 (fun _ => 0) absoluteImage = .accepted s ∧
    (s.run (schedule 6 absoluteBlocks)).exit = some (.started (ImgHeader.read absoluteImage.data).start) ∧
    (s.run (schedule 6 absoluteBlocks)).consumed = 519 ∧
    ∀ k < 7, (s.run (schedule 6 absoluteBlocks)).mem (0x200000 + k) = UInt8.ofNat (k + 1) := by
  obtain ⟨s, hs⟩ := absoluteImage_accepted
  have hheaders := absoluteImage_headers
  have hplain := absoluteSegments_plain
  have hsome : 0 < imageLength absoluteSegments := by decide
  have hn : 2 * absoluteSegments.length + 2 ≤ 6 := by decide
  obtain ⟨shs, hshs⟩ : ∃ shs, shs = absoluteSegments := ⟨_, rfl⟩
  rw [← hshs] at hheaders hplain hsome hn
  have hloaded := tagged_download_loads smallMachine 0 (fun _ => 0) absoluteImage false (absoluteBlocks.drop 1) s
    shs 6 hs hheaders hplain hsome hn
  rw [hshs, Loaded, if_pos (by decide +kernel)] at hloaded
  obtain ⟨hexit, hconsumed, hmem⟩ := hloaded
  refine ⟨s, hs, hexit, hconsumed, ?_⟩
  intro k hk
  refine (congrFun hmem _).trans ?_
  revert k
  decide +kernel

end Tagged
