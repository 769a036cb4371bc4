import Etherboot.Lib.RunLength
import Etherboot.Slam.Codec

set_option autoImplicit false

/-! # The SLAM server

The part of `mini-slamd` that answers a client: from the status packet it takes how many packets to
leave out and how many to send, in turn, until the packet ends or cannot be decoded; it then goes
back to asking its clients. Between two packets it only keeps its list of clients up to date.

`long` is `sizeof(unsigned long)` on the server. -/

namespace Slam

open Memory

/-- `packet`, `packet_count` and the position in the status packet. -/
structure Server where
  packet : Nat
  packetCount : Nat
  ptr : Nat

variable (long : Nat) (nack : Store) (fin : Nat)

/-- The next two integers of the status packet, for the packet number they are counted from. What
    `result` was before does not matter, as it was not negative. -/
def nextRun (packet ptr : Nat) : Option Server :=
  let (skip, ptr, result) := slamDecode long nack ptr fin 0
  if result < 0 then none
  else
    let (count, ptr, result) := slamDecode long nack ptr fin result
    if result < 0 then none
    else some { packet := (packet + skip) % 2 ^ (8 * long), packetCount := count, ptr := ptr }

/-- The next packet, when one has been sent. -/
def nextPacket (s : Server) : Option Server :=
  let packet := (s.packet + 1) % 2 ^ (8 * long)
  let packetCount := (s.packetCount + (2 ^ (8 * long) - 1)) % 2 ^ (8 * long)
  if packetCount = 0 then nextRun long nack fin packet s.ptr
  else some { s with packet := packet, packetCount := packetCount }

/-- `STATE_TRANSMITTING`, turn by turn: the numbers of the packets sent until the server leaves the
    state, or `none` if that takes more than `fuel` turns. -/
def transmit : Nat → Server → Option (List Nat)
  | 0, _ => none
  | fuel + 1, s =>
    match nextPacket long nack fin s with
    | none => some [s.packet]
    | some s' => (transmit fuel s').map (s.packet :: ·)

/-- What the server sends when it has received a status packet. -/
def answer (fuel : Nat) : Option (List Nat) :=
  match nextRun long nack fin 0 0 with
  | none => some []
  | some s => transmit long nack fin fuel s

variable {long nack fin}

/-! ## The run lengths as the server reads them -/

/-- The fields of a list of integers. -/
def fields (long : Nat) (vs : List Nat) : List UInt8 := vs.flatMap (field long)

theorem fields_cons (long v : Nat) (vs : List Nat) :
    fields long (v :: vs) = field long v ++ fields long vs := by
  simp [fields]

/-- A status packet: integers of four bytes at most, and a null. -/
structure StatusAt (nack : Store) (fin : Nat) (ptr : Nat) (vs : List Nat) : Prop where
  has : nack.Has ptr (fields 4 vs ++ [0])
  fin_eq : fin = ptr + (fields 4 vs).length + 1

variable {ptr v : Nat} {vs : List Nat}

theorem StatusAt.decode_nil (h : StatusAt nack fin ptr []) (err : Int) :
    slamDecode long nack ptr fin err = (0, ptr, -1) := by
  have hzero : nack ptr = 0 := (Store.has_cons.mp h.has).1
  simp only [slamDecode, hzero]
  rw [if_pos (Or.inl (by decide))]

/-- An integer is decoded, and what follows it is a status packet again. -/
theorem StatusAt.decode_cons (hlong : 4 ≤ long) (h : StatusAt nack fin ptr (v :: vs))
    (hv : v < 2 ^ 29) (err : Int) :
    ∃ ptr', slamDecode long nack ptr fin err = (v, ptr', err) ∧ StatusAt nack fin ptr' vs := by
  have hv4 : v < 256 ^ 4 := by omega
  have hlen := (fieldBytes_le_four hv4).mpr hv
  have hhas := h.has
  rw [fields_cons, List.append_assoc] at hhas
  obtain ⟨hfield, hrest⟩ := Store.has_append.mp hhas
  have hfin := h.fin_eq
  rw [fields_cons, List.length_append, length_field] at hfin
  rw [length_field] at hrest
  refine ⟨ptr + fieldBytes 4 v, ?_, hrest, by omega⟩
  rw [slamDecode_field hv4 hfield (by omega) (by omega), if_neg (by omega)]

theorem transmit_run (fuel : Nat) {c p : Nat} (hbound : p + c + 1 < 2 ^ (8 * long)) (ptr : Nat) :
    transmit long nack fin (fuel + c + 1) ⟨p, c + 1, ptr⟩ =
      match nextRun long nack fin (p + c + 1) ptr with
      | none => some (List.range' p (c + 1))
      | some s => (transmit long nack fin fuel s).map (List.range' p (c + 1) ++ ·) := by
  induction c generalizing p with
  | zero =>
    have hcount : (0 + 1 + (2 ^ (8 * long) - 1)) % 2 ^ (8 * long) = 0 := by
      rw [show 0 + 1 + (2 ^ (8 * long) - 1) = 2 ^ (8 * long) by omega, Nat.mod_self]
    simp only [transmit, nextPacket, hcount, if_true, Nat.mod_eq_of_lt (show p + 1 < 2 ^ (8 * long) by omega)]
    rfl
  | succ c ih =>
    have hcount : (c + 1 + 1 + (2 ^ (8 * long) - 1)) % 2 ^ (8 * long) = c + 1 := by
      rw [show c + 1 + 1 + (2 ^ (8 * long) - 1) = c + 1 + 2 ^ (8 * long) by omega,
        Nat.add_mod_right, Nat.mod_eq_of_lt (by omega)]
    rw [show fuel + (c + 1) + 1 = (fuel + c + 1) + 1 by omega, transmit]
    simp only [nextPacket, hcount, Nat.mod_eq_of_lt (show p + 1 < 2 ^ (8 * long) by omega)]
    rw [if_neg (by omega)]
    simp only []
    rw [ih (by omega), show p + 1 + c + 1 = p + (c + 1) + 1 by omega,
      List.range'_succ (n := c + 1)]
    cases nextRun long nack fin (p + (c + 1) + 1) ptr with
    | none => rfl
    | some s => simp only [Option.map_map, Function.comp_def, List.cons_append]

/-- The packets asked for by the integers of a status packet: leave out, send, in turn. -/
abbrev asked (p : Nat) (vs : List Nat) : List Nat := RunLength.replay false p vs

/-- What the server finds in the rest of a status packet: no further packets are asked for, or a run
    of them and then the rest. -/
theorem nextRun_cases (hlong : 4 ≤ long) {p : Nat} (hsum : p + vs.sum < 2 ^ 29)
    (hpos : ∀ v ∈ vs.tail, 0 < v) (h : StatusAt nack fin ptr vs) :
    (nextRun long nack fin p ptr = none ∧ asked p vs = []) ∨
      ∃ p' c ptr' vs', nextRun long nack fin p ptr = some ⟨p', c + 1, ptr'⟩ ∧
        StatusAt nack fin ptr' vs' ∧ asked p vs = List.range' p' (c + 1) ++ asked (p' + c + 1) vs' ∧
        vs'.length < vs.length ∧ p' + c + 1 + vs'.sum = p + vs.sum ∧ ∀ v ∈ vs', 0 < v := by
  have hpow : 2 ^ 29 < 2 ^ (8 * long) := Nat.pow_lt_pow_right (by decide) (by omega)
  match vs with
  | [] => exact Or.inl ⟨by simp [nextRun, h.decode_nil], rfl⟩
  | [r] =>
    obtain ⟨ptr', hdec, h'⟩ := h.decode_cons hlong (by simp at hsum; omega) 0
    exact Or.inl ⟨by simp [nextRun, hdec, h'.decode_nil], by simp [RunLength.replay]⟩
  | r :: 0 :: vs => cases hpos 0 (by simp)
  | r :: (q + 1) :: vs =>
    simp only [List.sum_cons] at hsum
    obtain ⟨ptr', hdec, h'⟩ := h.decode_cons hlong (by omega) 0
    obtain ⟨ptr'', hdec', h''⟩ := h'.decode_cons hlong (by omega) 0
    refine Or.inr ⟨p + r, q, ptr'', vs, ?_, h'', ?_, ?_, ?_, ?_⟩
    · simp only [nextRun, hdec, hdec']
      rw [if_neg (by decide), if_neg (by decide), Nat.mod_eq_of_lt (by omega)]
    · simp [RunLength.replay, Nat.add_assoc]
    · simp only [List.length_cons]
      omega
    · simp only [List.sum_cons]
      omega
    · exact fun v hv => hpos v (by simp [hv])

/-- **The replay.** From a run of `c + 1` packets on, the server sends what the integers ask for,
    and no more. -/
theorem transmit_asked (hlong : 4 ≤ long) (n : Nat) :
    ∀ (vs : List Nat) (p c ptr : Nat), vs.length ≤ n → p + c + 1 + vs.sum < 2 ^ 29 →
      (∀ v ∈ vs, 0 < v) → StatusAt nack fin ptr vs →
      ∃ fuel, transmit long nack fin fuel ⟨p, c + 1, ptr⟩ =
        some (List.range' p (c + 1) ++ asked (p + c + 1) vs) := by
  have hpow : 2 ^ 29 < 2 ^ (8 * long) := Nat.pow_lt_pow_right (by decide) (by omega)
  -- the rest of the status packet gets shorter with every run
  induction n using Nat.strong_induction_on with
  | _ n ih =>
    intro vs p c ptr hn hsum hpos h
    rcases nextRun_cases hlong (by omega) (fun v hv => hpos v (List.mem_of_mem_tail hv)) h with
      ⟨hnext, hasked⟩ | ⟨p', c', ptr', vs', hnext, h', hasked, hlen, hsum', hpos'⟩
    · refine ⟨0 + c + 1, ?_⟩
      rw [transmit_run 0 (by omega), hnext, hasked, List.append_nil]
    · obtain ⟨fuel, hfuel⟩ := ih vs'.length (by omega) vs' p' c' ptr' (Nat.le_refl _) (by omega)
        hpos' h'
      refine ⟨fuel + c + 1, ?_⟩
      rw [transmit_run fuel (by omega), hnext, hasked]
      simp only [hfuel, Option.map_some]

theorem answer_asked (hlong : 4 ≤ long) (hsum : vs.sum < 2 ^ 29) (hpos : ∀ v ∈ vs.tail, 0 < v)
    (h : StatusAt nack fin 0 vs) : ∃ fuel, answer long nack fin fuel = some (asked 0 vs) := by
  rcases nextRun_cases hlong (p := 0) (by omega) hpos h with
    ⟨hnext, hasked⟩ | ⟨p, c, ptr, vs', hnext, h', hasked, -, hsum', hpos'⟩
  · exact ⟨0, by simp only [answer, hnext, hasked]⟩
  · obtain ⟨fuel, hfuel⟩ :=
      transmit_asked hlong vs'.length vs' p c ptr (Nat.le_refl _) (by omega) hpos' h'
    exact ⟨fuel, by simp only [answer, hnext, hfuel, hasked]⟩

/-! ## The data packets -/

/-- What the server sends from: a file, with its modification time, cut into blocks. -/
structure Source where
  long : Nat
  transaction : Nat
  blockSize : Nat
  file : List UInt8

/-- Calls of `slam_encode`, one after the other, that are not checked. -/
def encodeAll (long fin : Nat) : List Nat → Nat × Store → Nat × Store
  | [], buf => buf
  | v :: vs, buf =>
    encodeAll long fin vs ((slamEncode long buf.2 buf.1 fin (v % 2 ^ (8 * long))).getD buf)

/-- `STATE_TRANSMITTING`: the packet that is sent, if there is something to read for it. -/
def Source.dataPacket (s : Source) (packet : Nat) : Option (List UInt8) :=
  let offset := packet * s.blockSize % 2 ^ (8 * s.long)
  let (dataLen, buf) := encodeAll s.long (28 + s.blockSize)
    [s.transaction, s.file.length, s.blockSize, packet] (0, fun _ => 0)
  let bytes := (s.file.drop offset).take s.blockSize
  if bytes.length = 0 then none
  else some ((buf.splice dataLen bytes).slice 0 (dataLen + bytes.length))

theorem valueBytes_le (long value : Nat) : valueBytes long value ≤ fieldBytes long value := by
  simp only [fieldBytes]
  split <;> omega

/-- With room for all of them, the fields are written one behind the other. -/
theorem encodeAll_eq {long fin ptr : Nat} {vs : List Nat} (hvs : ∀ v ∈ vs, v < 256 ^ long)
    (hfit : ptr + (fields long vs).length < fin) (m : Store) :
    encodeAll long fin vs (ptr, m) = (ptr + (fields long vs).length, m.splice ptr (fields long vs)) := by
  induction vs generalizing ptr m with
  | nil => simp [encodeAll, fields, Store.splice_nil]
  | cons v vs ih =>
    have hv : v < 256 ^ long := hvs v (by simp)
    have hmod : v % 2 ^ (8 * long) = v := Nat.mod_eq_of_lt (by rw [Nat.pow_mul]; exact hv)
    have hle := valueBytes_le long v
    rw [fields_cons, List.length_append, length_field] at hfit ⊢
    rw [encodeAll, hmod, slamEncode_eq hv, if_pos (by omega), Option.getD_some,
      ih (fun w hw => hvs w (by simp [hw])) (by omega), ← Store.splice_append, length_field,
      Nat.add_assoc]

theorem start_lt {n blockSize size : Nat} (hpos : 0 < blockSize)
    (hn : n < (size + blockSize - 1) / blockSize) : n * blockSize < size := by
  have hlow : (n + 1) * blockSize ≤ size + blockSize - 1 := (Nat.le_div_iff_mul_le hpos).mp hn
  rw [Nat.succ_mul] at hlow
  omega

namespace Source

variable (s : Source)

/-- The number of packets of the file. -/
def packets : Nat := (s.file.length + s.blockSize - 1) / s.blockSize

/-- The bytes of packet `n`. -/
def piece (n : Nat) : List UInt8 := (s.file.drop (n * s.blockSize)).take s.blockSize

/-- The header of every packet. -/
def header : List UInt8 :=
  fields s.long [s.transaction % 2 ^ (8 * s.long), s.file.length, s.blockSize]

/-- A file that can be sent: it is not empty, and no integer needs more than the seven bytes that
    the buffers provide for it. -/
structure Sendable : Prop where
  long : 4 ≤ s.long
  transaction : s.transaction % 2 ^ (8 * s.long) < 2 ^ 53
  blockSize_pos : 0 < s.blockSize
  blockSize_lt : s.blockSize < 2 ^ 32
  file_pos : 0 < s.file.length
  file_lt : s.file.length < 2 ^ 32

theorem Sendable.lt_pow {s : Source} (h : s.Sendable) {v : Nat} (hv : v < 2 ^ 32) : v < 256 ^ s.long :=
  Nat.lt_of_lt_of_le hv (Nat.pow_le_pow_right (by decide : 256 > 0) h.long)

theorem transaction_lt : s.transaction % 2 ^ (8 * s.long) < 256 ^ s.long := by
  rw [← show 2 ^ (8 * s.long) = 256 ^ s.long from Nat.pow_mul 2 8 s.long]
  exact Nat.mod_lt _ (Nat.pow_pos (by decide))

theorem length_piece (n : Nat) :
    (s.piece n).length = min s.blockSize (s.file.length - n * s.blockSize) := by
  rw [piece, List.length_take, List.length_drop]

theorem Sendable.dataPacket_eq {s : Source} (h : s.Sendable) {n : Nat} (hn : n < s.packets) :
    s.dataPacket n = some (s.header ++ field s.long n ++ s.piece n) := by
  have hpos := h.blockSize_pos
  have hstart := start_lt hpos hn
  have hfile := h.file_lt
  have hn32 : n < 2 ^ 32 := Nat.lt_of_le_of_lt (Nat.le_mul_of_pos_right n hpos) (by omega)
  have hoffset : n * s.blockSize % 2 ^ (8 * s.long) = n * s.blockSize :=
    Nat.mod_eq_of_lt (by rw [Nat.pow_mul]; exact h.lt_pow (by omega))
  have htrans := s.transaction_lt
  -- the four integers, with the first one cut down to an `unsigned long`
  have hcut : encodeAll s.long (28 + s.blockSize)
      [s.transaction, s.file.length, s.blockSize, n] (0, fun _ => 0) =
      encodeAll s.long (28 + s.blockSize)
        [s.transaction % 2 ^ (8 * s.long), s.file.length, s.blockSize, n] (0, fun _ => 0) := by
    simp only [encodeAll, Nat.mod_mod]
  have hfields : s.header ++ field s.long n =
      fields s.long [s.transaction % 2 ^ (8 * s.long), s.file.length, s.blockSize, n] := by
    simp [header, fields]
  have hlen : (s.header ++ field s.long n).length < 28 + s.blockSize := by
    have h1 := (fieldBytes_le_iff htrans 6).mpr h.transaction
    have h2 := (fieldBytes_le_iff (h.lt_pow hfile) 6).mpr (by omega)
    have h3 := (fieldBytes_le_iff (h.lt_pow h.blockSize_lt) 6).mpr (by have := h.blockSize_lt; omega)
    have h4 := (fieldBytes_le_iff (h.lt_pow hn32) 6).mpr (by omega)
    rw [hfields]
    simp only [fields, List.flatMap_cons, List.flatMap_nil, List.length_append, length_field,
      List.length_nil]
    omega
  have hpiece : (s.piece n).length ≠ 0 := by rw [length_piece]; omega
  simp only [dataPacket, hoffset, hcut]
  rw [show (s.file.drop (n * s.blockSize)).take s.blockSize = s.piece n from rfl,
    encodeAll_eq (by simpa using ⟨htrans, h.lt_pow hfile, h.lt_pow h.blockSize_lt, h.lt_pow hn32⟩)
      (by rw [← hfields]; omega), ← hfields]
  simp only [Nat.zero_add, if_neg hpiece]
  have hall := Store.splice_append (fun _ => 0) 0 (s.header ++ field s.long n) (s.piece n)
  rw [Nat.zero_add] at hall
  rw [hall, ← List.length_append]
  exact congrArg some (Store.slice_splice_self ..)

end Source

end Slam
