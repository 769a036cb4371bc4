import Etherboot.Slam.Client
import Etherboot.Slam.Server

set_option autoImplicit false

/-! # Client and server agree on what is missing

The client sends the run lengths of its bitmap, received and missing packets in turn, as far as there
is room. The server replays them. `nack_answered` says that it sends just the packets that are
missing, or the first of them if the run lengths had to be cut off. -/

namespace Slam

open Memory RunLength Bitmap Store

/-- The run lengths of the bitmap, as the walk puts them out: the last one is closed by the inverted
    bit behind it. -/
def bitmapRuns (bit : Nat → Bool) (total : Nat) : List Nat :=
  runs true 0 ((List.range total).map bit ++ [!bit (total - 1)])

/-- There is room for the run lengths from `ptr` on. -/
def fitsNack (ptr : Nat) : List Nat → Bool
  | [] => true
  | len :: lens => decide (ptr + valueBytes 4 len < nackEnd) && fitsNack (ptr + fieldBytes 4 len) lens

/-- The packets that are missing. -/
def missing (bit : Nat → Bool) (total : Nat) : List Nat := (List.range total).filter (fun i => !bit i)

/-! ## What the client sends -/

/-- The walk puts out the run lengths while there is room. -/
theorem nackLoop_fields (bit : Nat → Bool) (n i len : Nat) (last : Bool) (ptr : Nat) (data : Store)
    (hlen : len + n < 2 ^ 32) :
    ∃ k, nackLoop bit n i len last ptr data =
        (ptr + (fields 4 ((runs last len ((List.range' i n).map bit)).take k)).length,
          data.splice ptr (fields 4 ((runs last len ((List.range' i n).map bit)).take k))) ∧
      (fitsNack ptr (runs last len ((List.range' i n).map bit)) = true →
        (runs last len ((List.range' i n).map bit)).take k =
          runs last len ((List.range' i n).map bit)) := by
  induction n generalizing i len last ptr data with
  | zero => exact ⟨0, by simp [nackLoop, fields, splice_nil], by simp [runs]⟩
  | succ n ih =>
    rw [List.range'_succ, List.map_cons, runs, nackLoop]
    by_cases hlast : bit i = last
    · rw [if_pos hlast, if_pos hlast]
      exact ih (i + 1) (len + 1) last ptr data (by omega)
    · rw [if_neg hlast, if_neg hlast, slamEncode_eq (by omega)]
      by_cases hroom : ptr + valueBytes 4 len < nackEnd
      · rw [if_pos hroom]
        obtain ⟨k, hloop, hfits⟩ := ih (i + 1) 1 (bit i) (ptr + fieldBytes 4 len)
          (data.splice ptr (field 4 len)) (by omega)
        refine ⟨k + 1, ?_, fun h => ?_⟩
        · simp only [hloop, List.take_succ_cons, fields_cons, List.length_append, length_field]
          rw [← splice_append, length_field, Nat.add_assoc]
        · simp only [fitsNack, Bool.and_eq_true] at h
          rw [List.take_succ_cons, hfits h.2]
      · rw [if_neg hroom]
        refine ⟨0, by simp [fields, splice_nil], fun h => ?_⟩
        simp [fitsNack, hroom] at h

/-- The trailer is set; the packets' bits stay. -/
theorem bit_invertTrailer (mem : Store) (bitmap : Nat) {total i : Nat} (hpos : 1 ≤ total)
    (htotal : total < 2 ^ 32) (hi : i ≤ total) :
    bit (invertTrailer mem bitmap total) bitmap i =
      if i = total then !bit mem bitmap (total - 1) else bit mem bitmap i := by
  have hclear : bit (clearBit mem bitmap total) bitmap i = if i = total then false else bit mem bitmap i :=
    bit_clearBit htotal (by omega)
  simp only [invertTrailer, wsub_of_le hpos htotal]
  cases bit mem bitmap (total - 1) with
  | true => exact hclear
  | false =>
    have hset : bit (setBit (clearBit mem bitmap total) bitmap total) bitmap i =
        if i = total then true else bit (clearBit mem bitmap total) bitmap i :=
      bit_setBit htotal (by omega)
    by_cases h : i = total
    · simpa [h] using hset
    · rw [hclear, if_neg h, if_neg h] at hset
      rw [if_neg h]
      exact hset

theorem map_invertTrailer (mem : Store) (bitmap : Nat) {total : Nat} (hpos : 1 ≤ total)
    (htotal : total < 2 ^ 32) :
    (List.range' 0 (total + 1)).map (bit (invertTrailer mem bitmap total) bitmap) =
      (List.range total).map (bit mem bitmap) ++ [!bit mem bitmap (total - 1)] := by
  rw [← List.range_eq_range', List.range_succ, List.map_append, List.map_singleton,
    bit_invertTrailer mem bitmap hpos htotal (Nat.le_refl _), if_pos rfl]
  congr 1
  refine List.map_congr_left (fun i hi => ?_)
  have := List.mem_range.mp hi
  rw [bit_invertTrailer mem bitmap hpos htotal (by omega), if_neg (by omega)]

/-- What is transmitted: the first run lengths, all of them if there is room, and a null. -/
theorem transmitNack_fields (st : SlamState) (mem data : Store) (hbitmap : st.bitmap ≠ 0)
    (hpos : 1 ≤ st.totalPackets) (htotal : st.totalPackets < 2 ^ 29) :
    ∃ k, transmitNack (slamSendNack st mem data).2.1 (slamSendNack st mem data).2.2 =
        fields 4 ((bitmapRuns (bit mem st.bitmap) st.totalPackets).take k) ++ [0] ∧
      (fitsNack 0 (bitmapRuns (bit mem st.bitmap) st.totalPackets) = true →
        (bitmapRuns (bit mem st.bitmap) st.totalPackets).take k =
          bitmapRuns (bit mem st.bitmap) st.totalPackets) := by
  obtain ⟨k, hloop, hfits⟩ := nackLoop_fields
    (bit (invertTrailer mem st.bitmap st.totalPackets) st.bitmap) (st.totalPackets + 1) 0 0
    true 0 data (by omega)
  rw [map_invertTrailer mem st.bitmap hpos (by omega)] at hloop hfits
  refine ⟨k, ?_, hfits⟩
  simp only [slamSendNack, if_neg hbitmap, hloop, transmitNack, Nat.zero_add, bitmapRuns]
  generalize fields 4 _ = bs
  -- the null is written right behind the fields
  rw [slice_succ, Nat.zero_add, set_self]
  congr 1
  calc ((data.splice 0 bs).set bs.length 0).slice 0 bs.length
      = (data.splice 0 bs).slice 0 bs.length :=
        slice_congr (fun i hi => set_of_ne _ _ (by omega))
    _ = bs := slice_splice_self ..

/-! ## What the server makes of it -/

/-- The run lengths of the bitmap ask for the packets that are missing. -/
theorem asked_bitmapRuns (bit : Nat → Bool) {total : Nat} (hpos : 1 ≤ total) :
    asked 0 (bitmapRuns bit total) = missing bit total := by
  have hlast : ((List.range total).map bit).getLastD true = bit (total - 1) := by
    obtain ⟨n, rfl⟩ : ∃ n, total = n + 1 := ⟨total - 1, by omega⟩
    simp [List.range_succ]
  have h := replay_runs true 0 0 ((List.range total).map bit)
  rw [hlast] at h
  simp only [if_true, List.nil_append, Nat.add_zero, Bool.not_true] at h
  rw [asked, bitmapRuns, h, List.range_eq_range', gaps_map, missing, List.range_eq_range']

/-- **Client and server agree.** For every bitmap, the server answers the status packet with the
    missing packets, each once and in order, or with the first of them if their run lengths did not
    fit. -/
theorem nack_answered (long : Nat) (hlong : 4 ≤ long) (st : SlamState) (mem data : Store)
    (hbitmap : st.bitmap ≠ 0) (hpos : 1 ≤ st.totalPackets) (htotal : st.totalPackets < 2 ^ 29)
    (nack : Store) (len : Nat)
    (hlen : len = (transmitNack (slamSendNack st mem data).2.1 (slamSendNack st mem data).2.2).length)
    (hnack : nack.Has 0 (transmitNack (slamSendNack st mem data).2.1 (slamSendNack st mem data).2.2)) :
    ∃ fuel sent, answer long nack len fuel = some sent ∧
      sent <+: missing (Bitmap.bit mem st.bitmap) st.totalPackets ∧
      (fitsNack 0 (bitmapRuns (Bitmap.bit mem st.bitmap) st.totalPackets) = true →
        sent = missing (Bitmap.bit mem st.bitmap) st.totalPackets) := by
  obtain ⟨k, hsent, hfits⟩ := transmitNack_fields st mem data hbitmap hpos htotal
  rw [hsent] at hnack hlen
  rw [← asked_bitmapRuns _ hpos]
  generalize hrs : bitmapRuns (bit mem st.bitmap) st.totalPackets = rs at *
  have hsum : rs.sum < 2 ^ 29 := by
    have hlt : rs.sum < 0 + ((List.range st.totalPackets).map (bit mem st.bitmap) ++
        [!bit mem st.bitmap (st.totalPackets - 1)]).length :=
      hrs ▸ sum_runs_lt true 0 (by simp)
    simp at hlt
    omega
  have htake : (rs.take k).sum ≤ rs.sum := by
    have : rs.sum = (rs.take k).sum + (rs.drop k).sum := by
      rw [← List.sum_append, List.take_append_drop]
    omega
  have htail : ∀ v ∈ (rs.take k).tail, 0 < v := fun v hv =>
    runs_tail_pos _ _ _ v (hrs ▸ (List.take_sublist k rs).tail.subset hv)
  have hat : StatusAt nack len 0 (rs.take k) := ⟨hnack, by simpa using hlen⟩
  obtain ⟨fuel, hanswer⟩ := answer_asked hlong (by omega) htail hat
  exact ⟨fuel, asked 0 (rs.take k), hanswer, replay_take .., fun h => by rw [hfits h]⟩

/-- A transfer of five packets, of which 1, 2 and 4 have been received. -/
def fiveState : SlamState := { initSlamState 0 with totalPackets := 5, bitmap := 0x200000 }

def fiveBits : Store := fun a => if a = 0x200000 then 0x16 else 0

/-- The status packet of that transfer. -/
def fiveNack : List UInt8 :=
  transmitNack (slamSendNack fiveState fiveBits (fun _ => 0)).2.1
    (slamSendNack fiveState fiveBits (fun _ => 0)).2.2

theorem fiveNack_answered :
    fiveState.totalPackets < 2 ^ 29 ∧ ∃ fuel sent,
      answer 4 (Store.splice (fun _ => 0) 0 fiveNack) fiveNack.length fuel = some sent ∧
        sent = [0, 3] := by
  refine ⟨by decide, ?_⟩
  obtain ⟨fuel, sent, hanswer, -, hsent⟩ := nack_answered 4 (by decide) fiveState fiveBits
    (fun _ => 0) (by decide) (by decide) (by decide) (splice (fun _ => 0) 0 fiveNack)
    fiveNack.length rfl (slice_splice_self ..)
  exact ⟨fuel, sent, hanswer, (hsent (by decide)).trans (by decide)⟩

end Slam
