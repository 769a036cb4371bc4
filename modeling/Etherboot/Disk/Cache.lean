import Etherboot.Lib.Memory
import Etherboot.Lib.Transition

set_option autoImplicit false

/-! # The track cache (`disk_read` in `core/disk.c`, and the IDE and the floppy driver)

One buffer holds what was read last. Two fields say which sectors these are: `sector` and `bytes`. A driver
sets both to 0 before a transfer and sets them again after one that succeeds. The probe functions do not
touch them, though the buffer is used there to identify drives, and another drive is selected.
`reads_right` says that `disk_read` returns what it should as long as nothing is cached when a probe begins.

A sector's content is of any type, and the buffer is a row of such contents. What a transfer that fails or
an identification leaves in the buffer is up to the hardware, and so is which drive a probe finds; the
commands sent to the hardware are left out. -/

namespace Disk

variable {σ : Type}

inductive Driver where
  | ide
  | floppy
  deriving DecidableEq, Repr

/-- A drive as a probe function has found it. -/
structure Drive (σ : Type) where
  driver : Driver
  ideSectors : Nat
  content : Nat → σ

namespace Drive

/-- `disk->sectors`; for a floppy `DISK_H1440_HEAD*DISK_H1440_TRACK*DISK_H1440_SECT`. -/
def sectors (d : Drive σ) : Nat :=
  match d.driver with
  | .ide => d.ideSectors
  | .floppy => 2 * 80 * 18

/-- `disk->sectors_per_read` -/
def sectorsPerRead (d : Drive σ) : Nat :=
  match d.driver with
  | .ide => 1
  | .floppy => 18

end Drive

/-- What the hardware does: the transfer succeeds, or fails and leaves something in the buffer. -/
inductive Transfer (σ : Type) where
  | ok
  | failed (left : Nat → σ)

/-- `struct disk`, with the buffer cut into sectors. -/
structure State (σ : Type) where
  drive : Drive σ
  bytes : Nat
  sector : Nat
  buffer : Nat → σ

namespace State

variable (d : State σ) (sector : Nat)

/-- `ide_read` -/
def ideRead (t : Transfer σ) : Bool × State σ :=
  let d := { d with sector := 0, bytes := 0 }
  if sector > d.drive.ideSectors then (false, d)
  else
    match t with
    | .ok => (true, { d with
        buffer := fun k => if k = 0 then d.drive.content sector else d.buffer k,
        bytes := 512, sector := sector })
    | .failed left => (false, { d with buffer := left })

/-- `floppy_read`: the track on one side, in 32 bits. -/
def floppyRead (baseSector : Nat) (t : Transfer σ) : Bool × State σ :=
  let d := { d with sector := 0, bytes := 0 }
  let block := baseSector % 2 ^ 32 / 18
  let head := block % 2
  let track := block / 2 % 80
  match t with
  | .ok => (true, { d with
      buffer := fun k => if k < 18 then d.drive.content ((track * 2 + head) * 18 + k) else d.buffer k,
      sector := block * 18, bytes := 512 * 18 })
  | .failed left => (false, { d with buffer := left })

/-- `disk->read` -/
def read (t : Transfer σ) : Bool × State σ :=
  match d.drive.driver with
  | .ide => d.ideRead sector t
  | .floppy => d.floppyRead sector t

/-- `base_sector` in `disk_read`. -/
def base : Nat :=
  if d.drive.sectorsPerRead > 1 then sector - sector % 2 ^ 32 % d.drive.sectorsPerRead else sector

/-- `disk_read`: what is copied to the caller, unless the driver fails. -/
def diskRead (t : Transfer σ) : Option σ × State σ :=
  if sector < d.sector ∨ sector ≥ d.sector + d.bytes / 512 then
    match d.read (d.base sector) t with
    | (false, d') => (none, d')
    | (true, d') => (some (d'.buffer (sector - d.base sector)), d')
  else (some (d.buffer (sector - d.base sector)), d)

/-- `ide_pci_probe` and `floppy_probe`, which find the drive `drive`: the buffer is used by the first one. -/
def probe (drive : Drive σ) (left : Nat → σ) : State σ :=
  { d with drive := drive, buffer := left }

/-- After `memset` in `url_file`, or when Etherboot starts. -/
def init (drive : Drive σ) (buffer : Nat → σ) : State σ := ⟨drive, 0, 0, buffer⟩

end State

inductive Op (σ : Type) where
  | read (sector : Nat) (t : Transfer σ)
  | probe (drive : Drive σ) (left : Nat → σ)

namespace State

variable (d : State σ)

def step : Op σ → State σ
  | .read sector t => (d.diskRead sector t).2
  | .probe drive left => d.probe drive left

/-- What `disk_read` returns is the sector asked for of the drive selected. -/
def Right : Op σ → Prop
  | .read sector t => ∀ x, (d.diskRead sector t).1 = some x → x = d.drive.content sector
  | .probe .. => True

/-- The drive has such a sector; and nothing is cached when a probe begins. -/
def Condition : Op σ → Prop
  | .read sector _ => sector < d.drive.sectors
  | .probe .. => d.bytes = 0

/-! ## What the fields say -/

/-- What is cached, if something is, is a read of the drive selected. -/
structure Coherent : Prop where
  cached : d.bytes = 0 ∨ d.bytes = 512 * d.drive.sectorsPerRead ∧ d.sector % d.drive.sectorsPerRead = 0 ∧
    ∀ k < d.drive.sectorsPerRead, d.buffer k = d.drive.content (d.sector + k)

theorem read_spec {sector : Nat} (hs : sector < d.drive.sectors) (t : Transfer σ) :
    (d.read (d.base sector) t).2.Coherent ∧
      ((d.read (d.base sector) t).1 = true →
        (d.read (d.base sector) t).2.buffer (sector - d.base sector) = d.drive.content sector) := by
  obtain ⟨⟨driver, ideSectors, content⟩, bytes, cached, buffer⟩ := d
  cases driver with
  | ide =>
    have hs : ¬ sector > ideSectors := Nat.not_lt.mpr (Nat.le_of_lt hs)
    have hbase : base ⟨⟨.ide, ideSectors, content⟩, bytes, cached, buffer⟩ sector = sector := rfl
    rw [hbase, Nat.sub_self]
    cases t with
    | ok =>
      have hread : read ⟨⟨.ide, ideSectors, content⟩, bytes, cached, buffer⟩ sector .ok =
          (true, ⟨⟨.ide, ideSectors, content⟩, 512, sector,
            fun k => if k = 0 then content sector else buffer k⟩) :=
        if_neg hs
      rw [hread]
      refine ⟨⟨Or.inr ⟨rfl, Nat.mod_one _, fun k hk => ?_⟩⟩, fun _ => rfl⟩
      obtain rfl : k = 0 := Nat.lt_one_iff.mp hk
      rfl
    | failed left =>
      have hread : read ⟨⟨.ide, ideSectors, content⟩, bytes, cached, buffer⟩ sector (.failed left) =
          (false, ⟨⟨.ide, ideSectors, content⟩, 0, 0, left⟩) := if_neg hs
      rw [hread]
      exact ⟨⟨Or.inl rfl⟩, fun h => by cases h⟩
  | floppy =>
    have hs : sector < 2 * 80 * 18 := hs
    have hbase : base ⟨⟨.floppy, ideSectors, content⟩, bytes, cached, buffer⟩ sector = sector - sector % 18 := by
      show sector - sector % 2 ^ 32 % 18 = _
      omega
    rw [hbase]
    cases t with
    | ok =>
      have hblock : (sector - sector % 18) % 2 ^ 32 / 18 = sector / 18 := by omega
      have hside : (sector / 18 / 2 % 80 * 2 + sector / 18 % 2) * 18 = sector / 18 * 18 := by omega
      simp only [read, floppyRead, hblock, hside]
      refine ⟨⟨Or.inr ⟨rfl, Nat.mul_mod_left _ _, fun k hk => if_pos hk⟩⟩, fun _ => ?_⟩
      rw [if_pos (by omega)]
      exact congrArg content (by omega)
    | failed left => exact ⟨⟨Or.inl rfl⟩, fun h => by cases h⟩

theorem Coherent.hit {d : State σ} (h : d.Coherent) {sector : Nat} (hs : sector < d.drive.sectors)
    (hhit : ¬ (sector < d.sector ∨ sector ≥ d.sector + d.bytes / 512)) :
    d.buffer (sector - d.base sector) = d.drive.content sector := by
  obtain ⟨h⟩ := h
  obtain ⟨⟨driver, ideSectors, content⟩, bytes, cached, buffer⟩ := d
  dsimp only at h hhit
  rcases h with rfl | ⟨rfl, hmod, hcontent⟩
  · omega
  · cases driver with
    | ide =>
      have hread := hcontent 0 Nat.one_pos
      obtain rfl : sector = cached := by
        simp only [Drive.sectorsPerRead] at hhit
        omega
      show buffer (sector - sector) = content sector
      rw [Nat.sub_self]
      exact hread
    | floppy =>
      have hs : sector < 2 * 80 * 18 := hs
      simp only [Drive.sectorsPerRead] at hhit hmod hcontent
      show buffer (sector - (sector - sector % 2 ^ 32 % 18)) = content sector
      rw [hcontent _ (by omega)]
      exact congrArg content (by omega)

/-- **One operation.** -/
theorem Coherent.step {d : State σ} (h : d.Coherent) {op : Op σ} (hop : d.Condition op) :
    d.Right op ∧ (d.step op).Coherent := by
  cases op with
  | probe drive left => exact ⟨trivial, ⟨Or.inl hop⟩⟩
  | read sector t =>
    have hs : sector < d.drive.sectors := hop
    obtain ⟨hcoherent, hread⟩ := d.read_spec hs t
    rw [Right, State.step, diskRead]
    by_cases hmiss : sector < d.sector ∨ sector ≥ d.sector + d.bytes / 512
    · rw [if_pos hmiss]
      generalize d.read (d.base sector) t = r at hcoherent hread ⊢
      obtain ⟨ok, d'⟩ := r
      cases ok with
      | false => exact ⟨fun x hx => absurd hx (Option.some_ne_none x).symm, hcoherent⟩
      | true => exact ⟨fun x hx => Option.some.inj hx ▸ hread rfl, hcoherent⟩
    · rw [if_neg hmiss]
      exact ⟨fun x hx => Option.some.inj hx ▸ h.hit hs hmiss, h⟩

/-- **The cache is right.** In every run in which no probe begins with something cached and only sectors of
    the drive are read, `disk_read` returns the sector asked for whenever it succeeds. -/
theorem reads_right (drive : Drive σ) (buffer : Nat → σ) (ops : List (Op σ))
    (h : AllSteps step Condition (init drive buffer) ops) : AllSteps step Right (init drive buffer) ops :=
  h.of_inv Coherent (fun _ _ hd hop => hd.step hop) ⟨Or.inl rfl⟩

end State

/-- Two IDE drives, one with the sectors 100, 101, ... and one with 200, 201, ... -/
def firstDrive : Drive Nat := ⟨.ide, 1000, fun s => 100 + s⟩

def secondDrive : Drive Nat := ⟨.ide, 1000, fun s => 200 + s⟩

/-- A read that fails, with the probe after it, and another that succeeds. -/
theorem reads_after_failure :
    AllSteps State.step State.Right (.init firstDrive fun _ => 0)
      [.read 5 .ok, .read 6 (.failed fun _ => 0), .probe secondDrive fun _ => 0, .read 5 .ok] :=
  State.reads_right _ _ _
    ⟨show 5 < 1000 by decide, show 6 < 1000 by decide, rfl, show 5 < 1000 by decide, trivial⟩

/-- **A stale sector.** Sector 5 of the first drive is in the buffer when the second one is probed for, and is
    then returned for sector 5 of the second one. -/
theorem stale_sector :
    ¬ AllSteps State.step State.Right (.init firstDrive fun _ => 0)
      [.read 5 .ok, .probe secondDrive (fun _ => 105), .read 5 .ok] := by
  rintro ⟨-, -, hright, -⟩
  cases hright 105 rfl

end Disk
