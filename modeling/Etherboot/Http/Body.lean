import Etherboot.Lib.Blocks
import Etherboot.Http.Client

set_option autoImplicit false

/-! # The file in an answer

An answer with the result code 200 has a status line, the lines of the header, a blank line and the file.
`recv_tcp_request` gets it in segments. It looks for the blank line only behind another line of the same
segment, so that a segment that begins with the blank line, or in its middle, makes it read on in the file:
the file or a part of it is lost. `delivers_iff` says when the file reaches `fnc`. -/

namespace Http

open Text Blocks Store

/-! ## Answers and segments -/

def crlf : List UInt8 := [13, 10]

/-- An answer with the result code 200. -/
structure Response where
  version : List UInt8
  reason : List UInt8
  fields : List (List UInt8)
  body : List UInt8
  version_ok : 32 ∉ version
  reason_ok : 10 ∉ reason ∧ ∀ c, reason.head? = some c → ¬ isDigit c
  fields_ok : ∀ f ∈ fields, f ≠ [] ∧ 10 ∉ f

def Response.statusLine (r : Response) : List UInt8 := r.version ++ bytes " 200" ++ r.reason

/-- Everything up to the blank line, with it. -/
def Response.head (r : Response) : List UInt8 :=
  r.statusLine ++ crlf ++ (r.fields.flatMap (fun f => f ++ crlf)) ++ crlf

def Response.bytes (r : Response) : List UInt8 := r.head ++ r.body

/-- The bytes that `recv_tcp_request` is called for, in the memory they are in. -/
structure Segment where
  store : Store
  buffer : Nat
  length : Nat

def Segment.bytes (seg : Segment) : List UInt8 := seg.store.slice seg.buffer seg.length

/-- The segments of an answer. -/
structure Cut (r : Response) where
  segments : List Segment
  whole : (segments.map Segment.bytes).flatten = r.bytes

/-- `recv_tcp_request` is called for one segment after the other, until it returns 0. -/
def receive (fnc : List Call → Int) : List Segment → Inbox → Inbox
  | [], s => s
  | seg :: segs, s =>
    let r := recvTcpRequest fnc seg.length seg.store seg.buffer s
    if r.1 then receive fnc segs r.2 else r.2

/-- The state with which `http` begins a transaction. -/
def freshInbox (location : List UInt8) : Inbox :=
  { recvBuffer := [], block := 0, recvState := .resultCode, rc := -1, location := location, calls := [] }

/-! ## Blocks -/

variable (fnc : List Call → Int) (d : List UInt8)

/-- The calls for the blocks that are full. -/
def blockCalls : List Call := (Blocks.full blockSize d).mapIdx (fun i b => ⟨b, i + 1, false⟩)

/-- The calls for a file: its blocks, and a last one with what is left. -/
def fileCalls : List Call :=
  blockCalls d ++ [⟨Blocks.rest blockSize d, d.length / blockSize + 1, true⟩]

/-- `fnc` takes all full blocks of the file. -/
def Takes : Prop :=
  ∀ calls, calls <+: blockCalls d → calls ≠ [] → fnc calls ≠ 0

/-- `http` passes the file on: these are the calls when it returns. -/
def Delivers (location : List UInt8) (c : Client) (r : Response)
    (cut : Cut r) : Prop :=
  ∃ rc inbox, (c.next fnc (receive fnc cut.segments (freshInbox location))).phase = .returned rc inbox ∧
    inbox.calls = fileCalls r.body

theorem blockCalls_initial (d e : List UInt8) : blockCalls d <+: blockCalls (d ++ e) := by
  obtain ⟨more, hmore⟩ := @full_initial UInt8 blockSize d e
  rw [blockCalls, blockCalls, ← hmore, List.mapIdx_append]
  exact List.prefix_append _ _

theorem blockCalls_of_lt {d e : List UInt8} (h : d.length % blockSize + e.length < blockSize) :
    blockCalls (d ++ e) = blockCalls d := by
  rw [blockCalls, full_append_of_lt h, blockCalls]

theorem blockCalls_of_eq {d e : List UInt8} (h : d.length % blockSize + e.length = blockSize) :
    blockCalls (d ++ e) =
      blockCalls d ++ [⟨rest blockSize d ++ e, d.length / blockSize + 1, false⟩] := by
  rw [blockCalls, full_append_of_eq (by decide) h, List.mapIdx_concat, length_full, blockCalls]

section

variable {fnc : List Call → Int} {d e : List UInt8}

theorem Takes.of_append (h : Takes fnc (d ++ e)) : Takes fnc d :=
  fun calls hcalls => h calls (hcalls.trans (blockCalls_initial d e))

theorem takes_of_lt (h : d.length % blockSize + e.length < blockSize) : Takes fnc (d ++ e) ↔ Takes fnc d := by
  rw [Takes, blockCalls_of_lt h, Takes]

theorem takes_of_eq (h : d.length % blockSize + e.length = blockSize) :
    Takes fnc (d ++ e) ↔ Takes fnc d ∧ fnc (blockCalls (d ++ e)) ≠ 0 := by
  have hcalls := blockCalls_of_eq h
  constructor
  · intro htakes
    refine ⟨htakes.of_append, htakes _ (List.prefix_refl _) ?_⟩
    rw [hcalls]
    exact List.concat_ne_nil _ _
  · rintro ⟨hold, hnew⟩ calls hprefix hne
    rw [hcalls] at hprefix
    rcases List.prefix_concat_iff.mp hprefix with rfl | hprefix
    · rw [← hcalls]
      exact hnew
    · exact hold calls hprefix hne

end

theorem takes_nil : Takes fnc [] := by
  intro calls hprefix hne
  exact absurd (List.prefix_nil.mp hprefix) hne

theorem fileCalls_injective {d e : List UInt8} (h : fileCalls d = fileCalls e) : d = e := by
  have hdata : ∀ d, ((fileCalls d).map Call.data).flatten = d := by
    intro d
    have hblocks : (blockCalls d).map Call.data = full blockSize d := by
      refine List.ext_getElem? fun i => ?_
      rw [blockCalls, List.getElem?_map, List.getElem?_mapIdx, Option.map_map]
      exact Option.map_id'
    rw [fileCalls, List.map_append, hblocks, List.flatten_append]
    simp only [List.map_cons, List.map_nil, List.flatten_cons, List.flatten_nil, List.append_nil]
    exact flatten_full_append_rest
  rw [← hdata d, h, hdata e]

/-! ## The data -/

/-- The bytes `d` of the file have come: full blocks have been passed on, the rest is kept. -/
structure Inbox.Holds (s : Inbox) (d : List UInt8) : Prop where
  recvBuffer : s.recvBuffer = Blocks.rest blockSize d
  block : s.block = d.length / blockSize
  calls : s.calls = blockCalls d

/-- The bytes `d` have come, or `fnc` has refused a block of them. -/
def Outcome (r : Bool × Inbox) : Prop :=
  Takes fnc d ∧ r.1 = true ∧ r.2.Holds d ∨
    ¬ Takes fnc d ∧ r.1 = false ∧ r.2.recvBuffer.length = blockSize

section Data

variable {fnc : List Call → Int} {p : Store}

theorem recvData_outcome {fuel : Nat} :
    ∀ {buffer length : Nat} {s : Inbox} {d : List UInt8}, length ≤ fuel → s.Holds d → Takes fnc d →
      Outcome fnc (d ++ p.slice buffer length) (recvData fnc p fuel buffer length s) ∧
        (recvData fnc p fuel buffer length s).2.rc = s.rc ∧
        (recvData fnc p fuel buffer length s).2.recvState = s.recvState := by
  induction fuel with
  | zero =>
    intro buffer length s d hfuel hs htakes
    obtain rfl := Nat.le_zero.mp hfuel
    exact ⟨.inl ⟨(List.append_nil d).symm ▸ htakes, rfl, (List.append_nil d).symm ▸ hs⟩, rfl, rfl⟩
  | succ fuel ih =>
    intro buffer length s d hfuel hs htakes
    rw [recvData]
    split
    · next hzero =>
      subst hzero
      exact ⟨.inl ⟨(List.append_nil d).symm ▸ htakes, rfl, (List.append_nil d).symm ▸ hs⟩, rfl, rfl⟩
    · next hpos =>
      have hroom : s.recvBuffer.length = d.length % blockSize := by
        rw [hs.recvBuffer, length_rest]
      have hlt : d.length % blockSize < blockSize := Nat.mod_lt _ (by decide)
      generalize hn : min (blockSize - s.recvBuffer.length) length = n
      -- the piece that is copied, and the bytes behind it
      have hsplit : p.slice buffer length = p.slice buffer n ++ p.slice (buffer + n) (length - n) := by
        rw [← slice_append]
        congr 1
        omega
      rw [hsplit, ← List.append_assoc]
      dsimp only
      split
      · next hfull =>
        have heq : d.length % blockSize + (p.slice buffer n).length = blockSize := by
          rw [← hroom, ← List.length_append]
          exact hfull
        have hcalls : s.calls ++ [⟨s.recvBuffer ++ p.slice buffer n, s.block + 1, false⟩] =
            blockCalls (d ++ p.slice buffer n) := by
          rw [blockCalls_of_eq heq, hs.calls, hs.recvBuffer, hs.block]
        have htakes' := @takes_of_eq fnc d (p.slice buffer n) heq
        simp only [Inbox.pass, hcalls]
        split
        · next hrefused =>
          refine ⟨.inr ⟨fun h => ?_, rfl, hfull⟩, rfl, rfl⟩
          exact (htakes'.mp h.of_append).2 hrefused
        · next htaken =>
          refine ih (by omega) ⟨?_, ?_, rfl⟩ (htakes'.mpr ⟨htakes, htaken⟩)
          · exact (rest_append_of_eq (by decide) heq).symm
          · rw [div_append_of_eq (by decide) heq, ← hs.block]
      · next hnot =>
        have hlen : (s.recvBuffer ++ p.slice buffer n).length = d.length % blockSize + n := by
          rw [List.length_append, hroom, length_slice]
        have hlt' : d.length % blockSize + (p.slice buffer n).length < blockSize := by
          rw [length_slice]
          omega
        refine ih (by omega) ⟨?_, ?_, ?_⟩ ((takes_of_lt hlt').mpr htakes)
        · rw [rest_append_of_lt hlt', ← hs.recvBuffer]
        · rw [div_append_of_lt hlt', ← hs.block]
        · rw [blockCalls_of_lt hlt', ← hs.calls]

end Data

/-! ## The header -/

/-- The text behind the next end of a line. -/
def afterLine : List UInt8 → List UInt8
  | [] => []
  | c :: l => if c = 10 then l else afterLine l

/-- The text behind the first blank line that follows another line. -/
def afterBlank : List UInt8 → Option (List UInt8)
  | [] => none
  | c :: l => if c = 10 ∧ l.take 2 = crlf then some (l.drop 2) else afterBlank l

section Header

variable {fnc : List Call → Int} {p : Store}

theorem afterBlank_eq (l : List UInt8) :
    afterBlank l =
      if (afterLine l).take 2 = crlf then some ((afterLine l).drop 2) else afterBlank (afterLine l) := by
  induction l with
  | nil => rfl
  | cons c l ih =>
    by_cases hc : c = 10
    · simp only [afterBlank, afterLine, hc, if_true, true_and]
    · simp only [afterBlank, afterLine, hc, if_false, false_and]
      exact ih

theorem slice_cons (buffer length : Nat) :
    p.slice buffer (length + 1) = p buffer :: p.slice (buffer + 1) length := by
  rw [Nat.add_comm length 1, slice_append]
  rfl

theorem nextLine_eq (length : Nat) : ∀ buffer : Nat,
    p.slice (nextLine p buffer length).1 (nextLine p buffer length).2 = afterLine (p.slice buffer length) ∧
      (nextLine p buffer length).2 ≤ length - 1 := by
  induction length with
  | zero => exact fun _ => ⟨rfl, Nat.le_refl 0⟩
  | succ length ih =>
    intro buffer
    rw [nextLine, slice_cons, afterLine]
    split
    · exact ⟨rfl, Nat.le_refl _⟩
    · obtain ⟨hslice, hle⟩ := ih (buffer + 1)
      exact ⟨hslice, by omega⟩

theorem slice_two_iff {buffer length : Nat} (l : List UInt8) (hl : l.length = 2) :
    length ≥ 2 ∧ p.slice buffer 2 = l ↔ (p.slice buffer length).take 2 = l := by
  rcases Nat.lt_or_ge length 2 with hlt | hge
  · refine iff_of_false (fun h => absurd h.1 (by omega)) (fun h => ?_)
    have hlen := congrArg List.length h
    rw [List.length_take, length_slice, hl] at hlen
    omega
  · obtain ⟨n, rfl⟩ := Nat.exists_eq_add_of_le hge
    rw [slice_append, List.take_left' (length_slice p buffer 2)]
    exact and_iff_right hge

/-- The header is read up to the first blank line that follows another line of the segment. -/
theorem recvHeader_eq {fuel : Nat} :
    ∀ {buffer length : Nat} {s : Inbox}, length ≤ fuel → s.rc = 200 →
      (afterBlank (p.slice buffer length) = none →
        recvHeader fnc p fuel buffer length s = (true, s)) ∧
      (∀ rest, afterBlank (p.slice buffer length) = some rest →
        ∃ start, p.slice start rest.length = rest ∧ recvHeader fnc p fuel buffer length s =
          recvData fnc p rest.length start rest.length { s with recvState := .data }) := by
  induction fuel with
  | zero =>
    intro buffer length s hfuel _
    obtain rfl := Nat.le_zero.mp hfuel
    exact ⟨fun _ => rfl, fun rest h => by cases h⟩
  | succ fuel ih =>
    intro buffer length s hfuel hrc
    have hnotMoved : ¬ ((300 ≤ s.rc ∧ s.rc < 400) ∧ p.slice buffer 10 = bytes "Location: ") := by
      rintro ⟨⟨hge, -⟩, -⟩
      omega
    obtain ⟨hslice, hle⟩ := @nextLine_eq p length buffer
    rw [recvHeader, if_neg hnotMoved]
    split
    · next hzero =>
      subst hzero
      exact ⟨fun _ => rfl, fun rest h => by cases h⟩
    · next hpos =>
      rw [afterBlank_eq, ← hslice]
      generalize nextLine p buffer length = next at hle
      obtain ⟨buffer', length'⟩ := next
      dsimp only at hle ⊢
      have hblank : (length' ≥ 2 ∧ p.slice buffer' 2 = bytes "\r\n") ↔
          (p.slice buffer' length').take 2 = crlf := slice_two_iff crlf rfl
      split
      · next hcrlf =>
        have hstart : (p.slice buffer' length').drop 2 = p.slice (buffer' + 2) (length' - 2) :=
          drop_slice p buffer' length' 2
        rw [if_pos (hblank.mpr hcrlf)]
        refine ⟨fun h => absurd h (Option.some_ne_none _), fun rest h => ?_⟩
        cases h
        refine ⟨buffer' + 2, ?_, ?_⟩
        · rw [hstart, length_slice]
        · rw [hstart, length_slice]
      · next hother =>
        rw [if_neg (fun h => hother (hblank.mp h))]
        exact ih (by omega) hrc

end Header

/-! ## The segments after the status line -/

/-- The bytes `d` of the file have come with the result code 200, or `fnc` has refused a block of them. -/
structure Received (s : Inbox) : Prop where
  rc : s.rc = 200
  recvState : s.recvState ≠ .moved
  file : Takes fnc d ∧ s.Holds d ∨ ¬ Takes fnc d ∧ s.recvBuffer.length = blockSize

/-- What is taken for the file. -/
def bodyOf : List (List UInt8) → List UInt8
  | [] => []
  | seg :: segs =>
    match afterBlank seg with
    | some rest => rest ++ segs.flatten
    | none => bodyOf segs

section Receive

variable {fnc : List Call → Int} {d : List UInt8} {s : Inbox}

theorem received_of_outcome {segs : List Segment} {r : Bool × Inbox} (hrc : r.2.rc = 200)
    (hstate : r.2.recvState = .data) (h : Outcome fnc d r)
    (hrest : r.2.Holds d → Takes fnc d →
      Received fnc (d ++ (segs.map Segment.bytes).flatten) (receive fnc segs r.2)) :
    Received fnc (d ++ (segs.map Segment.bytes).flatten)
      (if r.1 then receive fnc segs r.2 else r.2) := by
  rcases h with ⟨htakes, hok, hholds⟩ | ⟨hrefuses, hok, hlen⟩
  · rw [hok]
    exact hrest hholds htakes
  · rw [hok]
    refine ⟨hrc, ?_, .inr ⟨fun h => hrefuses h.of_append, hlen⟩⟩
    rw [if_neg Bool.false_ne_true, hstate]
    decide

theorem receive_data (segs : List Segment) :
    ∀ {s : Inbox} {d : List UInt8}, s.rc = 200 → s.recvState = .data → s.Holds d → Takes fnc d →
      Received fnc (d ++ (segs.map Segment.bytes).flatten) (receive fnc segs s) := by
  induction segs with
  | nil =>
    intro s d hrc hstate hs htakes
    rw [List.map_nil, List.flatten_nil, List.append_nil]
    exact ⟨hrc, by rw [receive, hstate]; decide, .inl ⟨htakes, hs⟩⟩
  | cons seg segs ih =>
    intro s d hrc hstate hs htakes
    have hrecv : recvTcpRequest fnc seg.length seg.store seg.buffer s =
        recvData fnc seg.store seg.length seg.buffer seg.length s := by
      rw [recvTcpRequest, hstate]
    obtain ⟨houtcome, hrc', hstate'⟩ := recvData_outcome (Nat.le_refl seg.length) hs htakes
    rw [receive, hrecv, List.map_cons, List.flatten_cons, ← List.append_assoc]
    exact received_of_outcome (hrc'.trans hrc) (hstate'.trans hstate) houtcome
      (ih (hrc'.trans hrc) (hstate'.trans hstate))

theorem Inbox.Holds.congr {s' : Inbox} (h : s.Holds d) (hbuffer : s'.recvBuffer = s.recvBuffer)
    (hblock : s'.block = s.block) (hcalls : s'.calls = s.calls) : s'.Holds d :=
  ⟨hbuffer.trans h.recvBuffer, hblock.trans h.block, hcalls.trans h.calls⟩

/-- The header is looked through in the bytes of a segment, and then in the other segments. -/
theorem receive_after_header {segs : List Segment} {p : Store} {buffer length fuel : Nat}
    (hfuel : length ≤ fuel) (hrc : s.rc = 200) (hs : s.Holds [])
    (hrest : Received fnc (bodyOf (segs.map Segment.bytes)) (receive fnc segs s)) :
    Received fnc (bodyOf (p.slice buffer length :: segs.map Segment.bytes))
      (if (recvHeader fnc p fuel buffer length s).1 then
        receive fnc segs (recvHeader fnc p fuel buffer length s).2
      else (recvHeader fnc p fuel buffer length s).2) := by
  obtain ⟨hnone, hsome⟩ := @recvHeader_eq fnc p fuel buffer length s hfuel hrc
  rw [bodyOf]
  cases hblank : afterBlank (p.slice buffer length) with
  | none =>
    rw [hnone hblank]
    exact hrest
  | some rest =>
    obtain ⟨start, hslice, hrecv⟩ := hsome rest hblank
    rw [hrecv]
    have hs' : ({ s with recvState := .data } : Inbox).Holds [] := hs.congr rfl rfl rfl
    obtain ⟨houtcome, hrc', hstate'⟩ :=
      @recvData_outcome fnc p rest.length start rest.length _ [] (Nat.le_refl _) hs' (takes_nil fnc)
    rw [hslice, List.nil_append] at houtcome
    exact received_of_outcome (hrc'.trans hrc) hstate' houtcome
      (receive_data segs (hrc'.trans hrc) hstate')

theorem receive_header (segs : List Segment) (hrc : s.rc = 200) (hstate : s.recvState = .header)
    (hs : s.Holds []) : Received fnc (bodyOf (segs.map Segment.bytes)) (receive fnc segs s) := by
  induction segs with
  | nil => exact ⟨hrc, by rw [receive, hstate]; decide, .inl ⟨takes_nil fnc, hs⟩⟩
  | cons seg segs ih =>
    have hrecv : recvTcpRequest fnc seg.length seg.store seg.buffer s =
        recvHeader fnc seg.store seg.length seg.buffer seg.length s := by
      rw [recvTcpRequest, hstate]
    rw [receive, hrecv]
    exact receive_after_header (Nat.le_refl _) hrc hs ih

/-- At the end `http` passes on what is left. The file has been delivered if it is what was taken for it, and
    `fnc` has not refused a block. -/
theorem next_of_received {body : List UInt8} (c : Client) (h : Received fnc d s) :
    (∃ rc inbox, (c.next fnc s).phase = .returned rc inbox ∧ inbox.calls = fileCalls body) ↔
      Takes fnc d ∧ d = body := by
  have hnext : c.next fnc s = { c with phase := .returned (fnc (s.pass true).calls) (s.pass true) } := by
    rw [Client.next, if_neg h.recvState, Client.finish, if_pos h.rc]
  have hcalls : (∃ rc inbox, (c.next fnc s).phase = .returned rc inbox ∧ inbox.calls = fileCalls body) ↔
      s.calls ++ [⟨s.recvBuffer, s.block + 1, true⟩] = fileCalls body := by
    rw [hnext]
    constructor
    · rintro ⟨rc, inbox, hphase, hcalls⟩
      obtain ⟨-, rfl⟩ := Phase.returned.inj hphase
      exact hcalls
    · exact fun hcalls => ⟨_, _, rfl, hcalls⟩
  rw [hcalls]
  rcases h.file with ⟨htakes, hholds⟩ | ⟨hrefuses, hlen⟩
  · rw [hholds.calls, hholds.recvBuffer, hholds.block]
    exact ⟨fun heq => ⟨htakes, fileCalls_injective heq⟩, fun ⟨_, heq⟩ => heq ▸ rfl⟩
  · -- the last call has a full block, but a file has less behind its full blocks
    refine iff_of_false (fun heq => ?_) (fun h => hrefuses h.1)
    obtain ⟨-, hlast⟩ := List.append_inj' heq rfl
    have hdata : s.recvBuffer = rest blockSize body := congrArg Call.data (List.cons.inj hlast).1
    have hmod : body.length % blockSize < blockSize := Nat.mod_lt _ (by decide)
    rw [hdata, length_rest] at hlen
    omega

end Receive

end Http
