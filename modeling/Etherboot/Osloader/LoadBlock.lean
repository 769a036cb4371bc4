import Etherboot.Osloader.ElfProbe

set_option autoImplicit false

/-! # Feeding a file to an image loader (`load_block` in `core/osloader.c`)

A file arrives in blocks. `load_block` probes the first one for its type and hands each block to the
`os_download` function found, which answers with a number of 512-byte sectors it does not need. The
sectors are skipped over the following blocks by a 64-bit sector count and a byte count that borrows
from it.

The model is generic in the loader behind `os_download`: `σ` is its private state, `ρ` what it
amounts to when it does not return (it starts the image, or jumps back to the main loop). -/

namespace Osloader

variable {σ ρ : Type}

/-- What a data pointer gives access to: the bytes by their offset from it and, for the
    specification alone, the file offset it stands for. -/
structure Data where
  bytes : Store
  pos : Nat

inductive Download (σ ρ : Type) where
  | returned (s : σ) (skip : UInt64)
  | left (r : ρ)

/-- What `probe_image` comes to on the first block. -/
inductive ProbeImage (σ ρ : Type) where
  | declined
  | accepted (s : σ)
  | left (r : ρ)

/-- The static variables of `load_block`. -/
structure Loader (σ : Type) where
  osDownload : σ
  skipSectors : Nat
  skipBytes : Nat

inductive LoadResult (σ ρ : Type) where
  | more (l : Option (Loader σ))
  | invalid
  | left (r : ρ)

/-- A call `os_download(data + off, len, eof)` and the skip count it returned, 0 if it did not. -/
structure Window where
  off : Nat
  len : Nat
  ret : Nat
  deriving DecidableEq, Repr

/-- What `load_block` does with a block: skip it whole, with the skip that remains, or pass on what
    lies behind the skip. -/
inductive BlockAction where
  | skip (skipSectors skipBytes : Nat)
  | call (off len : Nat)
  deriving DecidableEq, Repr

/-- The second half of `load_block`. `skip_sectors` has 64 bits, `skip_bytes` and `len` 32. -/
def blockAction (ss sb len : Nat) (eof : Bool) : BlockAction :=
  if eof = false ∧ (ss > len / 512 ∨ (ss = len / 512 ∧ sb ≥ len % 512)) then
    -- not enough bytes: borrow them from skip_sectors
    let want := (len + (2 ^ 32 - sb) + 511) % 2 ^ 32
    let ss' := if sb < len then (ss + (2 ^ 64 - want / 512)) % 2 ^ 64 else ss
    let sb' := if sb < len then (sb + want / 512 * 512) % 2 ^ 32 else sb
    .skip ss' ((sb' + (2 ^ 32 - len)) % 2 ^ 32)
  else
    let skip := (ss * 512 % 2 ^ 64 + sb) % 2 ^ 64
    .call (skip % 2 ^ 32) ((len + (2 ^ 64 - skip)) % 2 ^ 32)

/-- The call of `os_download` on the part of a block from `off` on, the block being the one at file
    offset `pos`. -/
def passOn (dl : σ → Data → Nat → Bool → Download σ ρ) (s : σ) (pos : Nat) (b : Block)
    (off len : Nat) (eof : Bool) : Option Window × LoadResult σ ρ :=
  match dl s ⟨fun i => b.data ((off + i) % 2 ^ 32), pos + off⟩ len eof with
  | .returned s r => (some ⟨off, len, r.toNat⟩, .more (some ⟨s, r.toNat, 0⟩))
  | .left r => (some ⟨off, len, 0⟩, .left r)

def feedBlock (dl : σ → Data → Nat → Bool → Download σ ρ) (l : Loader σ) (pos : Nat) (b : Block)
    (eof : Bool) : Option Window × LoadResult σ ρ :=
  match blockAction l.skipSectors l.skipBytes b.len eof with
  | .skip ss sb => (none, .more (some ⟨l.osDownload, ss, sb⟩))
  | .call off len => passOn dl l.osDownload pos b off len eof

/-- `load_block`. Before a first block there is no `os_download` to call. -/
def loadBlock (probe : Block → ProbeImage σ ρ) (dl : σ → Data → Nat → Bool → Download σ ρ)
    (l : Option (Loader σ)) (block pos : Nat) (b : Block) (eof : Bool) :
    Option Window × LoadResult σ ρ :=
  if block = 1 then
    match probe b with
    | .declined => (none, .invalid)
    | .left r => (none, .left r)
    | .accepted s => feedBlock dl ⟨s, 0, 0⟩ pos b eof
  else
    match l with
    | none => (none, .invalid)
    | some l => feedBlock dl l pos b eof

/-- A call of `os_download` in a run: the file offset and length of the block it was made for, and
    its window. -/
structure Call where
  blockPos : Nat
  blockLen : Nat
  win : Window
  deriving DecidableEq, Repr

/-- Blocks numbered from `block` on are fed in order, the first of them lying at file offset `pos`. -/
def runBlocks (probe : Block → ProbeImage σ ρ) (dl : σ → Data → Nat → Bool → Download σ ρ) :
    Option (Loader σ) → Nat → Nat → List (Block × Bool) → List Call × LoadResult σ ρ
  | l, _, _, [] => ([], .more l)
  | l, block, pos, (b, eof) :: rest =>
    let r := loadBlock probe dl l block pos b eof
    let made := r.1.toList.map (Call.mk pos b.len)
    match r.2 with
    | .more l' =>
      let t := runBlocks probe dl l' (block + 1) (pos + b.len) rest
      (made ++ t.1, t.2)
    | .invalid => (made, .invalid)
    | .left r => (made, .left r)

/-! ## The skip still to do -/

/-- The bytes still to be skipped. -/
def Loader.pending (l : Loader σ) : Nat := 512 * l.skipSectors + l.skipBytes

/-- The byte count never reaches a sector, so the two counts are the digits of the pending skip. -/
structure Loader.Wf (l : Loader σ) : Prop where
  sectors : l.skipSectors < 2 ^ 64
  bytes : l.skipBytes < 512

/-- Before the last block a block is skipped exactly when the pending skip covers it. -/
theorem blockAction_more {ss sb len : Nat} (hss : ss < 2 ^ 64) (hsb : sb < 512)
    (hlen : len + 512 ≤ 2 ^ 32) :
    (len ≤ 512 * ss + sb ∧ ∃ ss' sb', blockAction ss sb len false = .skip ss' sb' ∧
      ss' < 2 ^ 64 ∧ sb' < 512 ∧ 512 * ss' + sb' = 512 * ss + sb - len) ∨
    (512 * ss + sb < len ∧
      blockAction ss sb len false = .call (512 * ss + sb) (len - (512 * ss + sb))) := by
  unfold blockAction
  by_cases hcov : ss > len / 512 ∨ (ss = len / 512 ∧ sb ≥ len % 512)
  · refine Or.inl ⟨by omega, _, _, if_pos ⟨rfl, hcov⟩, ?_, ?_, ?_⟩
    · split <;> omega
    · split <;> omega
    · split <;> omega
  · refine Or.inr ⟨by omega, ?_⟩
    rw [if_neg (fun h => hcov h.2)]
    simp only [BlockAction.call.injEq]
    omega

/-- On the last block the test for a covered block is switched off. -/
theorem blockAction_eof (ss sb len : Nat) :
    blockAction ss sb len true = .call ((ss * 512 % 2 ^ 64 + sb) % 2 ^ 64 % 2 ^ 32)
        ((len + (2 ^ 64 - (ss * 512 % 2 ^ 64 + sb) % 2 ^ 64)) % 2 ^ 32) := by
  simp [blockAction]

section Feeding

variable (dl : σ → Data → Nat → Bool → Download σ ρ)

/-- What happens to a block before the last: it is skipped and the pending skip shrinks by its
    length, or the part behind the pending skip is passed on. -/
theorem feedBlock_more {l : Loader σ} (hwf : l.Wf) (pos : Nat) (b : Block) :
    (b.len ≤ l.pending ∧ ∃ l', feedBlock dl l pos b false = (none, .more (some l')) ∧ l'.Wf ∧
      l'.osDownload = l.osDownload ∧ l'.pending = l.pending - b.len) ∨
    (l.pending < b.len ∧
      feedBlock dl l pos b false = passOn dl l.osDownload pos b l.pending (b.len - l.pending) false) := by
  rcases blockAction_more hwf.sectors hwf.bytes b.short with
    ⟨hle, ss', sb', hact, hss', hsb', hpend⟩ | ⟨hlt, hact⟩
  · refine Or.inl ⟨hle, ⟨l.osDownload, ss', sb'⟩, ?_, ⟨hss', hsb'⟩, rfl, hpend⟩
    rw [feedBlock, Block.len, hact]
  · refine Or.inr ⟨hlt, ?_⟩
    rw [feedBlock, Block.len, hact]
    rfl

/-- The last block is passed on from the pending skip, if that ends inside it. -/
theorem feedBlock_eof {l : Loader σ} (pos : Nat) (b : Block) (h : l.pending ≤ b.len) :
    feedBlock dl l pos b true = passOn dl l.osDownload pos b l.pending (b.len - l.pending) true := by
  have hshort := b.short
  have hact : blockAction l.skipSectors l.skipBytes b.len true
      = .call l.pending (b.len - l.pending) := by
    rw [blockAction_eof]
    unfold Loader.pending Block.len at *
    simp only [BlockAction.call.injEq]
    omega
  rw [feedBlock, hact]

/-- Passing on a window is recorded as such, whatever becomes of the call. -/
theorem passOn_window (s : σ) (pos : Nat) (b : Block) (off len : Nat) (eof : Bool) :
    ∃ ret, (passOn dl s pos b off len eof).1 = some ⟨off, len, ret⟩ := by
  unfold passOn
  split
  · exact ⟨_, rfl⟩
  · exact ⟨_, rfl⟩

end Feeding

/-! ## Windows -/

/-- Each call's window lies inside its block and starts where the one before ended, advanced by the
    skip that one returned; `next` is where the first has to start. -/
def CallsOk : Nat → List Call → Prop
  | _, [] => True
  | next, c :: cs =>
    c.win.off + c.win.len ≤ c.blockLen ∧ c.blockPos + c.win.off = next ∧
      CallsOk (c.blockPos + c.win.off + c.win.len + 512 * c.win.ret) cs

/-- The bytes still to be skipped before a block; none before the first. -/
def pendingSkip : Option (Loader σ) → Nat
  | none => 0
  | some l => l.pending

/-- The blocks of a file, the end-of-file flag set on the last only. -/
def flagged (blocks : List Block) (last : Block) : List (Block × Bool) :=
  blocks.map (fun b => (b, false)) ++ [(last, true)]

section Runs

variable (probe : Block → ProbeImage σ ρ) (dl : σ → Data → Nat → Bool → Download σ ρ)

theorem runBlocks_cons (l : Option (Loader σ)) (block pos : Nat) (b : Block) (eof : Bool)
    (rest : List (Block × Bool)) {w : Option Window} {l' : Option (Loader σ)}
    (h : loadBlock probe dl l block pos b eof = (w, .more l')) :
    runBlocks probe dl l block pos ((b, eof) :: rest) =
      (w.toList.map (Call.mk pos b.len) ++ (runBlocks probe dl l' (block + 1) (pos + b.len) rest).1,
        (runBlocks probe dl l' (block + 1) (pos + b.len) rest).2) := by
  rw [runBlocks, h]

theorem feedBlock_some {l : Loader σ} {pos : Nat} {b : Block} {eof : Bool} {w : Option Window}
    {l' : Option (Loader σ)} (h : feedBlock dl l pos b eof = (w, .more l')) : ∃ l'', l' = some l'' := by
  unfold feedBlock passOn at h
  split at h
  · simp only [Prod.mk.injEq, LoadResult.more.injEq] at h
    exact ⟨_, h.2.symm⟩
  · split at h
    · simp only [Prod.mk.injEq, LoadResult.more.injEq] at h
      exact ⟨_, h.2.symm⟩
    · simp at h

/-- Past the first block the numbers of the blocks do not matter. -/
theorem runBlocks_number (bs : List (Block × Bool)) :
    ∀ (l : Loader σ) (n n' pos : Nat), 2 ≤ n → 2 ≤ n' →
      runBlocks probe dl (some l) n pos bs = runBlocks probe dl (some l) n' pos bs := by
  induction bs with
  | nil => intro l n n' pos _ _; rfl
  | cons x bs ih =>
    intro l n n' pos hn hn'
    obtain ⟨b, eof⟩ := x
    have hload : ∀ k, 2 ≤ k → loadBlock probe dl (some l) k pos b eof = feedBlock dl l pos b eof := by
      intro k hk
      rw [loadBlock, if_neg (by omega)]
    rw [runBlocks, runBlocks, hload n hn, hload n' hn']
    rcases hfeed : feedBlock dl l pos b eof with ⟨w, l' | _ | r⟩
    · obtain ⟨l'', rfl⟩ := feedBlock_some dl hfeed
      simp only [ih l'' (n + 1) (n' + 1) (pos + b.len) (by omega) (by omega)]
    · rfl
    · rfl

/-- Once the first block is accepted, the run is that of a loader with nothing to skip. -/
theorem runBlocks_accepted {b : Block} {s : σ} (hprobe : probe b = .accepted s) (eof : Bool)
    (rest : List (Block × Bool)) (pos : Nat) :
    runBlocks probe dl none 1 pos ((b, eof) :: rest)
      = runBlocks probe dl (some ⟨s, 0, 0⟩) 2 pos ((b, eof) :: rest) := by
  have hfirst : loadBlock probe dl none 1 pos b eof = feedBlock dl ⟨s, 0, 0⟩ pos b eof := by
    rw [loadBlock, if_pos rfl, hprobe]
  have hsecond : loadBlock probe dl (some ⟨s, 0, 0⟩) 2 pos b eof = feedBlock dl ⟨s, 0, 0⟩ pos b eof := by
    rw [loadBlock, if_neg (by decide)]
  rw [runBlocks, runBlocks, hfirst, hsecond]
  rcases hfeed : feedBlock dl ⟨s, 0, 0⟩ pos b eof with ⟨w, l' | _ | r⟩
  · obtain ⟨l'', rfl⟩ := feedBlock_some dl hfeed
    simp only [runBlocks_number probe dl rest l'' (1 + 1) (2 + 1) (pos + b.len) (by omega)
      (by omega)]
  · rfl
  · rfl

/-- Where the first block is not accepted, nothing is ever passed on. -/
theorem runBlocks_refused {b : Block} (hprobe : ∀ s, probe b ≠ .accepted s) (eof : Bool)
    (rest : List (Block × Bool)) (pos : Nat) :
    (runBlocks probe dl none 1 pos ((b, eof) :: rest)).1 = [] ∧
      ∀ l, (runBlocks probe dl none 1 pos ((b, eof) :: rest)).2 ≠ .more l := by
  cases h : probe b with
  | declined => simp [runBlocks, loadBlock, h]
  | accepted s => exact absurd h (hprobe s)
  | left r => simp [runBlocks, loadBlock, h]

/-- The last block always leads to a call, and its window is right exactly when the pending skip
    ends inside the block. -/
theorem callsOk_last (l : Loader σ) (b : Block) (pos : Nat) :
    CallsOk (pos + l.pending) ((feedBlock dl l pos b true).1.toList.map (Call.mk pos b.len)) ↔
      l.pending ≤ b.len := by
  constructor
  · intro hok
    obtain ⟨ret, hret⟩ : ∃ ret, (feedBlock dl l pos b true).1 = some ⟨_, _, ret⟩ := by
      exact passOn_window dl _ _ _ _ _ _
    rw [hret] at hok
    obtain ⟨hin, hstart, -⟩ := hok
    simp only at hin hstart
    omega
  · intro hle
    obtain ⟨ret, hret⟩ := passOn_window dl l.osDownload pos b l.pending (b.len - l.pending) true
    rw [feedBlock_eof dl pos b hle, hret]
    simp only [Option.toList_some, List.map_cons, List.map_nil, CallsOk, and_true]
    omega

/-- From a loader in mid-file the whole run is right exactly when the skip pending at the last block
    ends inside it. -/
theorem callsOk_from (blocks : List Block) (last : Block) :
    ∀ (l : Loader σ) (block pos : Nat), l.Wf → 2 ≤ block → (CallsOk (pos + l.pending)
        (runBlocks probe dl (some l) block pos (flagged blocks last)).1 ↔
      ∀ l', (runBlocks probe dl (some l) block pos (blocks.map (fun b => (b, false)))).2 = .more l' →
        pendingSkip l' ≤ last.len) := by
  induction blocks with
  | nil =>
    intro l block pos hwf hblock
    have hload : loadBlock probe dl (some l) block pos last true = feedBlock dl l pos last true := by
      rw [loadBlock, if_neg (by omega)]
    have hcalls : (runBlocks probe dl (some l) block pos (flagged [] last)).1
        = (feedBlock dl l pos last true).1.toList.map (Call.mk pos last.len) := by
      simp only [flagged, List.map_nil, List.nil_append, runBlocks, hload]
      split <;> simp
    rw [hcalls, callsOk_last]
    simp [runBlocks, pendingSkip]
  | cons b bs ih =>
    intro l block pos hwf hblock
    have hload : loadBlock probe dl (some l) block pos b false = feedBlock dl l pos b false := by
      rw [loadBlock, if_neg (by omega)]
    rw [show flagged (b :: bs) last = (b, false) :: flagged bs last from rfl, List.map_cons]
    rcases feedBlock_more dl hwf pos b with ⟨hle, l', hfeed, hwf', -, hpend⟩ | ⟨hlt, hfeed⟩
    · -- the block is skipped whole
      rw [runBlocks_cons probe dl _ _ _ _ _ _ (hload.trans hfeed),
        runBlocks_cons probe dl _ _ _ _ _ _ (hload.trans hfeed)]
      have hstep := ih l' (block + 1) (pos + b.len) hwf' (by omega)
      rw [show pos + b.len + l'.pending = pos + l.pending by omega] at hstep
      simpa using hstep
    · cases hdl : dl l.osDownload
          ⟨fun i => b.data ((l.pending + i) % 2 ^ 32), pos + l.pending⟩ (b.len - l.pending) false with
      | returned s r =>
        -- a new skip begins at the end of the block
        have hpass : feedBlock dl l pos b false = (some ⟨l.pending, b.len - l.pending, r.toNat⟩,
            .more (some ⟨s, r.toNat, 0⟩)) := by
          rw [hfeed, passOn, hdl]
        rw [runBlocks_cons probe dl _ _ _ _ _ _ (hload.trans hpass),
          runBlocks_cons probe dl _ _ _ _ _ _ (hload.trans hpass)]
        have hstep := ih ⟨s, r.toNat, 0⟩ (block + 1) (pos + b.len)
          ⟨r.toNat_lt, by simp⟩ (by omega)
        have hnext : pos + l.pending + (b.len - l.pending) + 512 * r.toNat
            = pos + b.len + (Loader.mk s r.toNat 0).pending := by
          simp only [Loader.pending] at hlt ⊢
          omega
        simp only [Option.toList_some, List.map_cons, List.map_nil, List.cons_append,
          List.nil_append, CallsOk, hnext, hstep, true_and]
        exact and_iff_right (by omega)
      | left r =>
        have hpass : feedBlock dl l pos b false
            = (some ⟨l.pending, b.len - l.pending, 0⟩, .left r) := by
          rw [hfeed, passOn, hdl]
        simp only [runBlocks, hload, hpass, Option.toList_some, List.map_cons, List.map_nil,
          CallsOk, and_true]
        constructor
        · intro _ l' h
          cases h
        · intro _
          omega

/-- **The windows of a run.** For every file cut into blocks, with the end-of-file flag on the last
    one only, and for every loader behind `os_download`: every call gets a window inside its block
    that starts where the skip counts say, if and only if the skip still pending when the last block
    arrives ends inside that block. -/
theorem runBlocks_callsOk_iff (blocks : List Block) (last : Block) :
    CallsOk 0 (runBlocks probe dl none 1 0 (flagged blocks last)).1 ↔
      ∀ l, (runBlocks probe dl none 1 0 (blocks.map (fun b => (b, false)))).2 = .more l →
        pendingSkip l ≤ last.len := by
  cases blocks with
  | nil =>
    have hnone : ∀ l, (runBlocks probe dl none 1 0 []).2 = .more l → pendingSkip l ≤ last.len := by
      intro l h
      simp only [runBlocks, LoadResult.more.injEq] at h
      subst h
      exact Nat.zero_le _
    refine iff_of_true ?_ hnone
    by_cases hprobe : ∃ s, probe last = .accepted s
    · obtain ⟨s, hs⟩ := hprobe
      rw [show flagged [] last = (last, true) :: [] from rfl, runBlocks_accepted probe dl hs]
      exact (callsOk_from probe dl [] last ⟨s, 0, 0⟩ 2 0 ⟨by simp, by simp⟩ (by omega)).mpr
        (fun l h => by
          simp only [List.map_nil, runBlocks, LoadResult.more.injEq] at h
          subst h
          exact Nat.zero_le _)
    · rw [show flagged [] last = (last, true) :: [] from rfl,
        (runBlocks_refused probe dl (not_exists.mp hprobe) true [] 0).1]
      trivial
  | cons b bs =>
    rw [show flagged (b :: bs) last = (b, false) :: flagged bs last from rfl, List.map_cons]
    by_cases hprobe : ∃ s, probe b = .accepted s
    · obtain ⟨s, hs⟩ := hprobe
      rw [runBlocks_accepted probe dl hs, runBlocks_accepted probe dl hs]
      exact callsOk_from probe dl (b :: bs) last ⟨s, 0, 0⟩ 2 0 ⟨by simp, by simp⟩ (by omega)
    · obtain ⟨hcalls, -⟩ := runBlocks_refused probe dl (not_exists.mp hprobe) false
        (flagged bs last) 0
      obtain ⟨-, hres⟩ := runBlocks_refused probe dl (not_exists.mp hprobe) false
        (bs.map (fun b => (b, false))) 0
      rw [hcalls]
      exact iff_of_true trivial (fun l h => absurd h (hres l))

end Runs

/-! ## A skip past the end of the file -/

/-- A loader that answers every call by skipping one sector. -/
def skipOne : Unit → Data → Nat → Bool → Download Unit Empty := fun _ _ _ _ => .returned () 1

def zeroBlock (n : Nat) (h : n + 512 ≤ 2 ^ 32) : Block :=
  ⟨List.replicate n 0, fun _ => 0, 0, by simpa using h⟩

/-- A file of 100 bytes in blocks of 60: the skipped sector ends behind the file, and the last call
    gets a window outside its block, of a length that wrapped below zero. -/
theorem skipOne_window_outside :
    (runBlocks (fun _ => .accepted ()) skipOne none 1 0
        (flagged [zeroBlock 60 (by decide)] (zeroBlock 40 (by decide)))).1
      = [⟨0, 60, ⟨0, 60, 1⟩⟩, ⟨60, 40, ⟨512, 4294966824, 1⟩⟩] ∧
    ¬ CallsOk 0 (runBlocks (fun _ => .accepted ()) skipOne none 1 0
        (flagged [zeroBlock 60 (by decide)] (zeroBlock 40 (by decide)))).1 := by
  have hcalls : (runBlocks (fun _ => .accepted ()) skipOne none 1 0
      (flagged [zeroBlock 60 (by decide)] (zeroBlock 40 (by decide)))).1
      = [⟨0, 60, ⟨0, 60, 1⟩⟩, ⟨60, 40, ⟨512, 4294966824, 1⟩⟩] := by rfl
  refine ⟨hcalls, fun hok => ?_⟩
  exact absurd hok.2.2.1 (by decide)

end Osloader
