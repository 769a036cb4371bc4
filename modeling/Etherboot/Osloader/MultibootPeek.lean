import Etherboot.Osloader.ElfLoad

set_option autoImplicit false

/-! # The search for a Multiboot header (`arch/i386/core/multiboot_loader.c`)

`multibootPeek` looks for a Multiboot header in the first 8K of an image that comes in blocks of any
size. It keeps a window of up to twelve bytes from one call to the next: four bytes that are not the
magic number are dropped, and of twelve bytes that are no header the part that begins with the next
magic number is kept.

The invariant is `Searching F k s`: the window begins at `k`, and no header begins before `k`. A byte
moves the window on or completes the first header (`examine_cases`); from this come what a block does
(`Ends.loop`) and what all of them do (`Ends.blocks`), wherever the image is cut. -/

namespace Multiboot

open Memory Osloader

def headerMagic : Nat := 0x1BADB002

/-! ## The fields of a header at `p` -/

def magic (f : Store) (p : Nat) : Nat := le32 f p

def flags (f : Store) (p : Nat) : Nat := le32 f (p + 4)

def checksum (f : Store) (p : Nat) : Nat := le32 f (p + 8)

/-- `magic + flags + checksum`, which is 0 for a header. -/
def total (f : Store) (p : Nat) : Nat := (magic f p + flags f p + checksum f p) % 2 ^ 32

/-! ## The search -/

/-- The static variables of the search. `mbheader` is null or points to `mbbuffer`. -/
structure Peek where
  mbheader : Bool
  mbimgoffset : Nat
  mboffset : Nat
  mbbuffer : Store

def multibootInit (s : Peek) : Peek := { s with mbheader := false, mbimgoffset := 0, mboffset := 0 }

/-- The next byte goes to the end of the window. -/
def Peek.store (s : Peek) (c : UInt8) : Peek where
  mbheader := s.mbheader
  mbimgoffset := s.mbimgoffset + 1
  mboffset := s.mboffset + 1
  mbbuffer := s.mbbuffer.set s.mboffset c

/-- The first `k` bytes of the window go, and `memmove` brings the others to the front. -/
def Peek.drop (s : Peek) (k : Nat) : Peek :=
  { s with mboffset := s.mboffset - k
           mbbuffer := fun i => if i < s.mboffset - k then s.mbbuffer (i + k) else s.mbbuffer i }

/-- How a round of the loop ends: it goes on, it breaks, or it jumps back to `restart_etherboot`. -/
inductive Round where
  | next (s : Peek)
  | broke (s : Peek)
  | restarted (s : Peek)

/-- The tests on the window. -/
def Peek.examine (s : Peek) : Round :=
  if s.mboffset = 4 then
    if magic s.mbbuffer 0 ≠ headerMagic then .next { s with mboffset := 0 } else .next s
  else if s.mboffset = 12 then
    if total s.mbbuffer 0 ≠ 0 then
      if flags s.mbbuffer 0 = headerMagic then .next (s.drop 4)
      else if checksum s.mbbuffer 0 = headerMagic then .next (s.drop 8)
      else .next { s with mboffset := 0 }
    else if flags s.mbbuffer 0 &&& 0xfffc ≠ 0 then .restarted { s with mbheader := true }
    else .broke { s with mbheader := true }
  else .next s

/-- How a call ends. -/
inductive Peeked where
  | returned (s : Peek)
  | restarted (s : Peek)

def Peeked.state : Peeked → Peek
  | .returned s => s
  | .restarted s => s

def Peeked.aborted : Peeked → Bool
  | .returned _ => false
  | .restarted _ => true

/-- The `while` loop, and the bytes left over added to the offset behind it. -/
def peekLoop : List UInt8 → Peek → Peeked
  | [], s => .returned s
  | c :: cs, s =>
    match (s.store c).examine with
    | .next s => peekLoop cs s
    | .broke s => .returned { s with mbimgoffset := s.mbimgoffset + cs.length }
    | .restarted s => .restarted s

/-- A block of the image. Its length is an `int`. -/
structure PeekBlock where
  bytes : List UInt8
  nonempty : bytes ≠ []
  short : bytes.length < 2 ^ 31

def multibootPeek (s : Peek) (b : PeekBlock) : Peeked :=
  if s.mboffset = 12 ∨ s.mbimgoffset ≥ 8192 then .returned s
  else if (s.mbimgoffset + b.bytes.length) % 2 ^ 32 ≥ 8192 then
    peekLoop (b.bytes.take (8192 - s.mbimgoffset)) s
  else peekLoop b.bytes s

/-- The blocks of an image one after the other. -/
def peekBlocks : List PeekBlock → Peek → Peeked
  | [], s => .returned s
  | b :: bs, s =>
    match multibootPeek s b with
    | .returned s => peekBlocks bs s
    | .restarted s => .restarted s

/-! ## The window -/

/-- A header at `k`, as far as its words tell. -/
structure Header (F : Store) (k : Nat) : Prop where
  aligned : k % 4 = 0
  begins : magic F k = headerMagic
  sums : total F k = 0

/-- The window begins at `k`, and no header begins before. -/
structure Window (F : Store) (k : Nat) (s : Peek) : Prop where
  aligned : k % 4 = 0
  count : s.mbimgoffset = k + s.mboffset
  holds : ∀ i < s.mboffset, s.mbbuffer i = F (k + i)
  none : ∀ j < k, ¬ Header F j

/-- Between two bytes: there is room in the window, and four bytes or more begin with the magic
    number. -/
structure Searching (F : Store) (k : Nat) (s : Peek) : Prop extends Window F k s where
  clear : s.mbheader = false
  room : s.mboffset < 12
  begins : 4 ≤ s.mboffset → magic F k = headerMagic

/-- The window is the first header. -/
structure Found (F : Store) (k : Nat) (s : Peek) : Prop where
  set : s.mbheader = true
  full : s.mboffset = 12
  holds : ∀ i < 12, s.mbbuffer i = F (k + i)
  header : Header F k
  first : ∀ j < k, ¬ Header F j

section Window

variable {F : Store} {k : Nat} {s : Peek}

section

variable (h : Window F k s)

include h

theorem Window.word {p : Nat} (hp : p + 4 ≤ s.mboffset) :
    le32 s.mbbuffer p = le32 F (k + p) := by
  have hread : ∀ i < 4, s.mbbuffer (p + i) = (fun j => F (k + j)) (p + i) := by
    intro i hi
    exact h.holds (p + i) (by omega)
  rw [le32_congr (g := fun j => F (k + j)) hread]
  simp only [le32, le16, Nat.add_assoc]

theorem Window.magic_eq (hfour : 4 ≤ s.mboffset) : magic s.mbbuffer 0 = magic F k :=
  h.word (p := 0) (by omega)

theorem Window.flags_eq (hfull : s.mboffset = 12) : flags s.mbbuffer 0 = flags F k :=
  h.word (p := 4) (by omega)

theorem Window.checksum_eq (hfull : s.mboffset = 12) :
    checksum s.mbbuffer 0 = checksum F k :=
  h.word (p := 8) (by omega)

theorem Window.total_eq (hfull : s.mboffset = 12) : total s.mbbuffer 0 = total F k := by
  rw [total, h.magic_eq (by omega), h.flags_eq hfull, h.checksum_eq hfull]
  rfl

theorem Window.store : Window F k (s.store (F (k + s.mboffset))) where
  aligned := h.aligned
  count := by simp only [Peek.store, h.count]; omega
  holds := by
    intro i hi
    simp only [Peek.store] at hi ⊢
    by_cases hlast : i = s.mboffset
    · rw [hlast, Store.set_self]
    · rw [Store.set_of_ne _ _ hlast, h.holds i (by omega)]
  none := h.none

/-- The window may move on over places at which no header begins. -/
theorem Window.drop {d : Nat} (hd : d % 4 = 0) (hle : d ≤ s.mboffset)
    (hnone : ∀ j, k ≤ j → j < k + d → j % 4 = 0 → ¬ Header F j) : Window F (k + d) (s.drop d) where
  aligned := by have := h.aligned; omega
  count := by
    have := h.count
    simp only [Peek.drop]
    omega
  holds := by
    intro i hi
    simp only [Peek.drop] at hi ⊢
    rw [if_pos hi, h.holds (i + d) (by omega)]
    congr 1
    omega
  none := by
    intro j hj hheader
    by_cases hbefore : j < k
    · exact h.none j hbefore hheader
    · exact hnone j (by omega) hj hheader.aligned hheader

/-- A window that is emptied holds nothing, whatever the buffer has. -/
theorem Window.empty (hnone : ∀ j, k ≤ j → j < k + s.mboffset → j % 4 = 0 → ¬ Header F j)
    (hd : s.mboffset % 4 = 0) : Window F (k + s.mboffset) { s with mboffset := 0 } := by
  have hdrop := h.drop hd (le_refl _) hnone
  exact ⟨hdrop.aligned, by simp [h.count], fun i hi => absurd hi (Nat.not_lt_zero i), hdrop.none⟩

end

end Window

/-! ## A byte -/

section Byte

variable {F : Store} {k : Nat} {s : Peek}

theorem Header.not_of_magic {j : Nat} (h : magic F j ≠ headerMagic) : ¬ Header F j :=
  fun hheader => h hheader.begins

theorem Window.wrongMagic (h : Window F k s) (hfour : s.mboffset = 4)
    (hmagic : magic s.mbbuffer 0 ≠ headerMagic) :
    Window F (k + s.mboffset) { s with mboffset := 0 } := by
  refine h.empty ?_ (by omega)
  intro j hge hlt haligned
  have hk := h.aligned
  have hj : j = k := by omega
  rw [hj]
  rw [h.magic_eq (by omega)] at hmagic
  exact Header.not_of_magic hmagic

theorem Window.wrongTotal (h : Window F k s) (hfull : s.mboffset = 12)
    (htotal : total s.mbbuffer 0 ≠ 0) {d : Nat} (hd : d ≤ 12)
    (hflags : 4 < d → flags s.mbbuffer 0 ≠ headerMagic)
    (hchecksum : 8 < d → checksum s.mbbuffer 0 ≠ headerMagic) :
    ∀ j, k ≤ j → j < k + d → j % 4 = 0 → ¬ Header F j := by
  intro j hge hlt haligned
  have hk := h.aligned
  rw [h.total_eq hfull] at htotal
  rw [h.flags_eq hfull] at hflags
  rw [h.checksum_eq hfull] at hchecksum
  rcases (by omega : j = k ∨ j = k + 4 ∨ j = k + 8) with rfl | rfl | rfl
  · exact fun hheader => htotal hheader.sums
  · exact Header.not_of_magic (hflags (by omega))
  · exact Header.not_of_magic (hchecksum (by omega))

/-- **A byte** moves the window on, or it completes the first header. -/
theorem Searching.byte (h : Searching F k s) :
    (∃ k' s', (s.store (F (k + s.mboffset))).examine = .next s' ∧ Searching F k' s' ∧
      s'.mbimgoffset = s.mbimgoffset + 1) ∨
    ∃ s', Found F k s' ∧ k + 12 = s.mbimgoffset + 1 ∧ s'.mbimgoffset = s.mbimgoffset + 1 ∧
      ((s.store (F (k + s.mboffset))).examine = .broke s' ∧ flags F k &&& 0xfffc = 0 ∨
        (s.store (F (k + s.mboffset))).examine = .restarted s' ∧ flags F k &&& 0xfffc ≠ 0) := by
  have hw := h.toWindow.store
  have hroom := h.room
  have hcount := h.count
  have hclear : (s.store (F (k + s.mboffset))).mbheader = false := h.clear
  have hoffset : (s.store (F (k + s.mboffset))).mboffset = s.mboffset + 1 := rfl
  have himage : (s.store (F (k + s.mboffset))).mbimgoffset = s.mbimgoffset + 1 := rfl
  generalize s.store (F (k + s.mboffset)) = t at hw hclear hoffset himage
  unfold Peek.examine
  by_cases hfour : t.mboffset = 4
  · rw [if_pos hfour]
    by_cases hmagic : magic t.mbbuffer 0 = headerMagic
    · rw [if_neg (by simpa using hmagic)]
      rw [hw.magic_eq (by omega)] at hmagic
      exact Or.inl ⟨k, t, rfl, ⟨hw, hclear, by omega, fun _ => hmagic⟩, himage⟩
    · rw [if_pos hmagic]
      exact Or.inl ⟨_, _, rfl, ⟨hw.wrongMagic hfour hmagic, hclear, by simp, by simp⟩, himage⟩
  rw [if_neg hfour]
  have hmagic : 4 ≤ t.mboffset → magic F k = headerMagic := fun hle => h.begins (by omega)
  by_cases hfull : t.mboffset = 12
  · rw [if_pos hfull]
    by_cases htotal : total t.mbbuffer 0 = 0
    · rw [if_neg (by simpa using htotal), ← hw.flags_eq hfull]
      rw [hw.total_eq hfull] at htotal
      have hfound : Found F k { t with mbheader := true } :=
        ⟨rfl, hfull, fun i hi => hw.holds i (by omega), ⟨hw.aligned, hmagic (by omega), htotal⟩, hw.none⟩
      refine Or.inr ⟨_, hfound, by omega, himage, ?_⟩
      by_cases hflags : flags t.mbbuffer 0 &&& 0xfffc = 0
      · exact Or.inl ⟨by rw [if_neg (by simpa using hflags)], hflags⟩
      · exact Or.inr ⟨by rw [if_pos hflags], hflags⟩
    · rw [if_pos htotal]
      -- the next magic number in the window is where the search goes on
      have hplaces := fun d hd => hw.wrongTotal hfull htotal (d := d) hd
      by_cases hflags : flags t.mbbuffer 0 = headerMagic
      · rw [if_pos hflags]
        have hdrop := hw.drop (d := 4) rfl (by omega) (hplaces 4 (by omega) (by omega) (by omega))
        rw [hw.flags_eq hfull] at hflags
        exact Or.inl ⟨_, _, rfl, ⟨hdrop, hclear, by simp [Peek.drop, hfull], fun _ => hflags⟩, himage⟩
      rw [if_neg hflags]
      by_cases hchecksum : checksum t.mbbuffer 0 = headerMagic
      · rw [if_pos hchecksum]
        have hdrop := hw.drop (d := 8) rfl (by omega)
          (hplaces 8 (by omega) (fun _ => hflags) (by omega))
        rw [hw.checksum_eq hfull] at hchecksum
        exact Or.inl ⟨_, _, rfl, ⟨hdrop, hclear, by simp [Peek.drop, hfull], fun _ => hchecksum⟩, himage⟩
      · rw [if_neg hchecksum]
        have hempty := hw.empty
          (by rw [hfull]; exact hplaces 12 (le_refl _) (fun _ => hflags) (fun _ => hchecksum)) (by omega)
        exact Or.inl ⟨_, _, rfl, ⟨hempty, hclear, by simp, by simp⟩, himage⟩
  · rw [if_neg hfull]
    exact Or.inl ⟨k, t, rfl, ⟨hw, hclear, by omega, hmagic⟩, himage⟩

end Byte

/-! ## Blocks -/

/-- How the search stands when the first `n` bytes of an image have been seen. -/
inductive Ends (F : Store) (n : Nat) : Peeked → Prop where
  | searching {k : Nat} {s : Peek} (h : Searching F k s) (hn : s.mbimgoffset = n) : Ends F n (.returned s)
  | found {k : Nat} {s : Peek} (h : Found F k s) (hn : k + 12 ≤ n) (hflags : flags F k &&& 0xfffc = 0) :
      Ends F n (.returned s)
  | refused {k : Nat} {s : Peek} (h : Found F k s) (hn : k + 12 ≤ n) (hflags : flags F k &&& 0xfffc ≠ 0) :
      Ends F n (.restarted s)

/-- The bytes of `data` stand in the image from `n` on. -/
def StandsAt (F : Store) (n : Nat) (data : List UInt8) : Prop :=
  ∀ i (h : i < data.length), data[i] = F (n + i)

variable {F : Store} {n : Nat}

theorem StandsAt.tail {c : UInt8} {cs : List UInt8} (h : StandsAt F n (c :: cs)) :
    StandsAt F (n + 1) cs := by
  intro i hi
  have hnext := h (i + 1) (by rw [List.length_cons]; omega)
  rw [List.getElem_cons_succ] at hnext
  rw [hnext]
  congr 1
  omega

theorem StandsAt.left {u v : List UInt8} (h : StandsAt F n (u ++ v)) : StandsAt F n u := by
  intro i hi
  have hboth := h i (by rw [List.length_append]; omega)
  rwa [List.getElem_append_left hi] at hboth

theorem StandsAt.right {u v : List UInt8} (h : StandsAt F n (u ++ v)) : StandsAt F (n + u.length) v := by
  intro i hi
  have hboth := h (u.length + i) (by rw [List.length_append]; omega)
  simpa [Nat.add_assoc] using hboth

theorem StandsAt.take {m : Nat} {data : List UInt8} (h : StandsAt F n data) :
    StandsAt F n (data.take m) := by
  intro i hi
  rw [List.getElem_take]
  exact h i (by rw [List.length_take] at hi; omega)

theorem Ends.loop (data : List UInt8) :
    ∀ {k : Nat} {s : Peek}, Searching F k s → StandsAt F s.mbimgoffset data →
      Ends F (s.mbimgoffset + data.length) (peekLoop data s) := by
  induction data with
  | nil =>
    intro k s h _
    exact .searching h rfl
  | cons c cs ih =>
    intro k s h hdata
    have hc : c = F (k + s.mboffset) := by
      have hfirst := hdata 0 (by simp)
      rw [List.getElem_cons_zero, h.count] at hfirst
      exact hfirst
    have hlen : s.mbimgoffset + (c :: cs).length = s.mbimgoffset + 1 + cs.length := by
      rw [List.length_cons]
      omega
    rw [hlen, peekLoop, hc]
    rcases h.byte with ⟨k', s', hnext, h', hcount⟩ | ⟨s', hfound, hend, -, ⟨hbroke, hflags⟩ | ⟨hrestarted, hflags⟩⟩
    · rw [hnext, ← hcount]
      exact ih h' (by rw [hcount]; exact hdata.tail)
    · rw [hbroke]
      exact .found ⟨hfound.set, hfound.full, hfound.holds, hfound.header, hfound.first⟩ (by omega) hflags
    · rw [hrestarted]
      exact .refused hfound (by omega) hflags

theorem Ends.peek {s : Peek} (h : Ends F (min n 8192) (.returned s))
    (b : PeekBlock) (hdata : StandsAt F n b.bytes) :
    Ends F (min (n + b.bytes.length) 8192) (multibootPeek s b) := by
  have hshort := b.short
  unfold multibootPeek
  cases h with
  | @found k s hfound hn hflags =>
    rw [if_pos (Or.inl hfound.full)]
    exact .found hfound (by omega) hflags
  | @searching k s hsearch hn =>
    have hroom := hsearch.room
    by_cases hdone : n ≥ 8192
    · rw [if_pos (Or.inr (by omega))]
      exact .searching hsearch (by omega)
    have hcount : s.mbimgoffset = n := by omega
    rw [if_neg (by omega), hcount, Nat.mod_eq_of_lt (by omega)]
    rw [← hcount] at hdata
    by_cases hcut : n + b.bytes.length ≥ 8192
    · have hloop := Ends.loop (b.bytes.take (8192 - n)) hsearch hdata.take
      rw [List.length_take, hcount] at hloop
      rw [if_pos hcut]
      rwa [show n + min (8192 - n) b.bytes.length = min (n + b.bytes.length) 8192 by omega] at hloop
    · have hloop := Ends.loop b.bytes hsearch hdata
      rw [hcount] at hloop
      rw [if_neg hcut]
      rwa [show n + b.bytes.length = min (n + b.bytes.length) 8192 by omega] at hloop

theorem Ends.blocks (blocks : List PeekBlock) :
    ∀ {n : Nat} {s : Peek}, Ends F (min n 8192) (.returned s) →
      StandsAt F n (blocks.flatMap PeekBlock.bytes) →
      Ends F (min (n + (blocks.flatMap PeekBlock.bytes).length) 8192) (peekBlocks blocks s) := by
  induction blocks with
  | nil =>
    intro n s h _
    exact h
  | cons b bs ih =>
    intro n s h hdata
    have hpeek := h.peek b hdata.left
    rw [List.flatMap_cons, List.length_append, ← Nat.add_assoc, peekBlocks]
    cases hres : multibootPeek s b with
    | returned s' =>
      rw [hres] at hpeek
      exact ih hpeek hdata.right
    | restarted s' =>
      rw [hres] at hpeek
      cases hpeek with
      | refused hfound hn hflags => exact .refused hfound (by omega) hflags

/-! ## The search over an image -/

/-- A header in the first 8K of an image. -/
structure IsHeader (image : List UInt8) (k : Nat) : Prop extends Header (fileData image) k where
  inside : k + 12 ≤ image.length
  early : k + 12 ≤ 8192

def FirstHeader (image : List UInt8) (k : Nat) : Prop :=
  IsHeader image k ∧ ∀ j < k, ¬ IsHeader image j

theorem FirstHeader.unique {image : List UInt8} {j k : Nat} (hj : FirstHeader image j)
    (hk : FirstHeader image k) : j = k := by
  rcases Nat.lt_trichotomy j k with hlt | heq | hgt
  · exact absurd hj.1 (hk.2 j hlt)
  · exact heq
  · exact absurd hk.1 (hj.2 k hgt)

section Image

variable {image : List UInt8} {k : Nat} {s : Peek}

theorem Found.firstHeader (h : Found (fileData image) k s) (hn : k + 12 ≤ min image.length 8192) :
    FirstHeader image k :=
  ⟨⟨h.header, by omega, by omega⟩, fun j hj hheader => h.first j hj hheader.toHeader⟩

/-- Before the window there is no header, and behind its start there is no room for one. -/
theorem Searching.noHeader (h : Searching (fileData image) k s)
    (hn : s.mbimgoffset = min image.length 8192) (j : Nat) : ¬ IsHeader image j := by
  intro hheader
  have hroom := h.room
  have hcount := h.count
  have hinside := hheader.inside
  have hearly := hheader.early
  exact h.none j (by omega) hheader.toHeader

end Image

theorem multibootInit_searching (F : Store) (s : Peek) : Searching F 0 (multibootInit s) where
  aligned := rfl
  count := rfl
  holds := fun i hi => by cases hi
  none := fun j hj => by cases hj
  clear := rfl
  room := by simp [multibootInit]
  begins := by simp [multibootInit]

theorem standsAt_fileData (image : List UInt8) : StandsAt (fileData image) 0 image := by
  intro i hi
  simp [fileData, hi]

/-- **The search, however the image is cut.** A header is found if and only if there is one in the
    first 8K, it is the first, and the load is aborted exactly if its flags ask for too much. -/
theorem peekBlocks_firstHeader (s : Peek) (blocks : List PeekBlock) :
    let image := blocks.flatMap PeekBlock.bytes
    let r := peekBlocks blocks (multibootInit s)
    (r.state.mbheader = true ↔ ∃ k, IsHeader image k) ∧
      (∀ k, FirstHeader image k → r.state.mbbuffer.slice 0 12 = Store.slice (fileData image) k 12) ∧
      (r.aborted = true ↔ ∃ k, FirstHeader image k ∧ flags (fileData image) k &&& 0xfffc ≠ 0) := by
  intro image r
  have hends : Ends (fileData image) (min image.length 8192) r := by
    have hblocks := Ends.blocks blocks (n := 0) (.searching (multibootInit_searching (fileData image) s) rfl)
      (standsAt_fileData image)
    rwa [Nat.zero_add] at hblocks
  have hcopied : ∀ {k : Nat} {s : Peek}, Found (fileData image) k s →
      k + 12 ≤ min image.length 8192 → ∀ j, FirstHeader image j →
      s.mbbuffer.slice 0 12 = Store.slice (fileData image) j 12 := by
    intro k s hfound hn j hj
    rw [hj.unique (hfound.firstHeader hn)]
    refine Store.slice_congr fun i hi => ?_
    rw [Nat.zero_add]
    exact hfound.holds i hi
  clear_value r
  cases hends with
  | searching h hn =>
    refine ⟨?_, fun k hk => absurd hk.1 (h.noHeader hn k), ?_⟩
    · simp only [Peeked.state, h.clear, Bool.false_eq_true, false_iff, not_exists]
      exact h.noHeader hn
    · simp only [Peeked.aborted, Bool.false_eq_true, false_iff, not_exists]
      exact fun k hk => h.noHeader hn k hk.1.1
  | found h hn hflags =>
    have hfirst := h.firstHeader hn
    refine ⟨iff_of_true h.set ⟨_, hfirst.1⟩, hcopied h hn, ?_⟩
    simp only [Peeked.aborted, Bool.false_eq_true, false_iff, not_exists]
    rintro k ⟨hk, hbad⟩
    rw [hk.unique hfirst] at hbad
    exact hbad hflags
  | refused h hn hflags =>
    have hfirst := h.firstHeader hn
    exact ⟨iff_of_true h.set ⟨_, hfirst.1⟩, hcopied h hn, iff_of_true rfl ⟨_, hfirst, hflags⟩⟩

end Multiboot
