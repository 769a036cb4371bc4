import Etherboot.Http.Body

set_option autoImplicit false

/-! # Where an answer may be cut

The file is passed on exactly if the first segment has the status line up to behind the result code, no segment
begins with the blank line or in its middle (but for an empty file), and `fnc` takes the blocks. -/

namespace Http

open Text Response

/-- A segment begins at the position `n`. -/
def CutAt (segs : List (List UInt8)) (n : Nat) : Prop :=
  ∃ before after, segs = before ++ after ∧ before.flatten.length = n

/-- The cut of an answer with which its file is passed on. -/
structure Suits (fnc : List Call → Int) (r : Response) (cut : Cut r) : Prop where
  /-- The first segment goes on behind the result code. -/
  status : ∃ seg segs, cut.segments = seg :: segs ∧ r.version.length + 5 ≤ seg.length
  /-- The blank line and the end of the line before it are in one segment. -/
  blank : r.body = [] ∨ ¬ CutAt (cut.segments.map Segment.bytes) (r.head.length - 2) ∧
    ¬ CutAt (cut.segments.map Segment.bytes) (r.head.length - 1)
  takes : Takes fnc r.body

/-! ## Segments and positions -/

section CutAt

variable {seg : List UInt8} {segs : List (List UInt8)} {n : Nat}

theorem cutAt_cons (hn : 0 < n) : CutAt (seg :: segs) n ↔ ∃ m, n = seg.length + m ∧ CutAt segs m := by
  constructor
  · rintro ⟨before, after, heq, hlen⟩
    cases before with
    | nil =>
      rw [List.flatten_nil, List.length_nil] at hlen
      omega
    | cons x before =>
      obtain ⟨rfl, rfl⟩ := List.cons.inj heq
      rw [List.flatten_cons, List.length_append] at hlen
      exact ⟨before.flatten.length, hlen.symm, before, after, rfl, rfl⟩
  · rintro ⟨m, rfl, before, after, rfl, rfl⟩
    exact ⟨seg :: before, after, rfl, by rw [List.flatten_cons, List.length_append]⟩

theorem cutAt_zero : CutAt segs 0 := ⟨[], segs, rfl, rfl⟩

theorem cutAt_add (hn : 0 < n) : CutAt (seg :: segs) (seg.length + n) ↔ CutAt segs n := by
  rw [cutAt_cons (by omega)]
  constructor
  · rintro ⟨m, hm, hcut⟩
    obtain rfl : n = m := by omega
    exact hcut
  · exact fun hcut => ⟨n, rfl, hcut⟩

theorem cutAt_length (hn : 0 < seg.length) : CutAt (seg :: segs) seg.length :=
  (cutAt_cons hn).mpr ⟨0, rfl, cutAt_zero⟩

theorem not_cutAt_of_lt (hn : 0 < n) (hlt : n < seg.length) : ¬ CutAt (seg :: segs) n := by
  rw [cutAt_cons hn]
  rintro ⟨m, hm, -⟩
  omega

/-- The beginning of the first segment does not matter. -/
theorem cutAt_drop {k : Nat} (hn : 0 < n) (hk : k ≤ seg.length) :
    CutAt (seg :: segs) (k + n) ↔ CutAt (seg.drop k :: segs) n := by
  rw [cutAt_cons (by omega), cutAt_cons hn, List.length_drop]
  constructor
  · rintro ⟨m, hm, hcut⟩
    exact ⟨m, by omega, hcut⟩
  · rintro ⟨m, hm, hcut⟩
    exact ⟨m, by omega, hcut⟩

end CutAt

/-! ## The blank line -/

/-- The text has no blank line behind another line, also if the end of a line follows. -/
def Blankless (x : List UInt8) : Prop := afterBlank (x ++ [10, 13]) = none

section Blank

variable {x body : List UInt8} {segs : List (List UInt8)}

theorem afterBlank_append {a b : List UInt8} (h : afterBlank (a ++ b) = none) :
    afterBlank a = none ∧ afterBlank b = none := by
  induction a with
  | nil => exact ⟨rfl, h⟩
  | cons c a ih =>
    rw [List.cons_append, afterBlank] at h
    split at h
    · cases h
    · next hnot =>
      obtain ⟨ha, hb⟩ := ih h
      refine ⟨?_, hb⟩
      rw [afterBlank, if_neg, ha]
      rintro ⟨hc, htake⟩
      refine hnot ⟨hc, ?_⟩
      have hlen : 2 ≤ a.length := by
        have := congrArg List.length htake
        rw [List.length_take] at this
        have h2 : crlf.length = 2 := rfl
        omega
      rw [List.take_append_of_le_length hlen, htake]

theorem Blankless.of_append {a b : List UInt8} (h : Blankless (a ++ b)) :
    afterBlank a = none ∧ Blankless b := by
  rw [Blankless, List.append_assoc] at h
  exact afterBlank_append h

theorem Blankless.afterBlank (h : Blankless x) (rest : List UInt8) :
    Http.afterBlank (x ++ 10 :: 13 :: 10 :: rest) = some rest := by
  induction x with
  | nil => rfl
  | cons c x ih =>
    have hnone : Http.afterBlank (c :: (x ++ [10, 13])) = none := h
    rw [Http.afterBlank] at hnone
    split at hnone
    · cases hnone
    · next hnot =>
      rw [List.cons_append, Http.afterBlank, if_neg, ih hnone]
      rintro ⟨hc, htake⟩
      refine hnot ⟨hc, ?_⟩
      have hsplit : x ++ 10 :: 13 :: 10 :: rest = (x ++ [10, 13]) ++ 10 :: rest := by
        rw [List.append_assoc]
        rfl
      rw [hsplit, List.take_append_of_le_length] at htake
      · exact htake
      · rw [List.length_append]
        exact Nat.le_add_left 2 x.length

theorem length_of_afterBlank {l rest : List UInt8} (h : afterBlank l = some rest) :
    rest.length + 3 ≤ l.length := by
  induction l with
  | nil => cases h
  | cons c l ih =>
    rw [afterBlank] at h
    split at h
    · next hblank =>
      cases h
      have hlen := congrArg List.length hblank.2
      have h2 : crlf.length = 2 := rfl
      rw [List.length_take] at hlen
      rw [List.length_drop, List.length_cons]
      omega
    · have := ih h
      rw [List.length_cons]
      omega

/-- What is taken for the file is shorter than the segments, by a blank line and the end of a line. -/
theorem length_bodyOf (segs : List (List UInt8)) :
    bodyOf segs = [] ∨ (bodyOf segs).length + 3 ≤ segs.flatten.length := by
  induction segs with
  | nil => exact .inl rfl
  | cons seg segs ih =>
    rw [bodyOf, List.flatten_cons, List.length_append]
    cases hblank : afterBlank seg with
    | some rest =>
      have := length_of_afterBlank hblank
      refine .inr ?_
      rw [List.length_append]
      omega
    | none => exact ih.imp_right (fun h => Nat.le_add_left_of_le h)

/-- A segment begins with the blank line or in its middle: only an empty file comes through. -/
theorem bodyOf_of_cut (h : segs.flatten.length ≤ body.length + 2) : bodyOf segs = body ↔ body = [] := by
  have hlen := length_bodyOf segs
  constructor
  · rintro rfl
    exact hlen.resolve_right (by omega)
  · rintro rfl
    rw [List.length_nil] at h
    exact hlen.resolve_right (by omega)

/-- **The file comes through** if no segment begins with the blank line or in its middle. -/
theorem bodyOf_iff : ∀ {x : List UInt8}, Blankless x → segs.flatten = x ++ 10 :: 13 :: 10 :: body →
    (bodyOf segs = body ↔ body = [] ∨ ¬ CutAt segs (x.length + 1) ∧ ¬ CutAt segs (x.length + 2)) := by
  induction segs with
  | nil =>
    intro x _ hflat
    have := congrArg List.length hflat
    simp at this
  | cons seg segs ih =>
    intro x hx hflat
    rcases List.append_eq_append_iff.mp hflat with ⟨x', rfl, hrest⟩ | ⟨more, rfl, hrest⟩
    · -- the blank line comes later
      obtain ⟨hnone, hx'⟩ := hx.of_append
      rw [bodyOf, hnone, List.length_append, Nat.add_assoc, Nat.add_assoc, cutAt_add (by omega),
        cutAt_add (by omega)]
      exact ih hx' hrest
    · -- how much of the end of the line and the blank line is in this segment
      rcases more with _ | ⟨a, _ | ⟨b, _ | ⟨c, more⟩⟩⟩
      · obtain ⟨hnone, -⟩ := afterBlank_append hx
        rw [List.append_nil, bodyOf, hnone, cutAt_add (by omega), cutAt_add (by omega)]
        exact ih (x := []) rfl hrest.symm
      · simp only [List.cons_append, List.nil_append, List.cons.injEq] at hrest
        obtain ⟨rfl, hrest⟩ := hrest
        have hlen : segs.flatten.length = body.length + 2 := by
          rw [← hrest]
          rfl
        have hx' : afterBlank ((x ++ [10]) ++ [13]) = none := by
          rw [List.append_assoc]
          exact hx
        have hcut : CutAt ((x ++ [10]) :: segs) (x.length + 1) := by
          have := @cutAt_length (x ++ [10]) segs (by simp)
          rwa [List.length_append] at this
        rw [bodyOf, (afterBlank_append hx').1]
        exact (bodyOf_of_cut (Nat.le_of_eq hlen)).trans (or_iff_left (fun h => h.1 hcut)).symm
      · simp only [List.cons_append, List.nil_append, List.cons.injEq] at hrest
        obtain ⟨rfl, rfl, hrest⟩ := hrest
        have hlen : segs.flatten.length = body.length + 1 := by
          rw [← hrest]
          rfl
        have hcut : CutAt ((x ++ [10, 13]) :: segs) (x.length + 2) := by
          have := @cutAt_length (x ++ [10, 13]) segs (by simp)
          rwa [List.length_append] at this
        rw [bodyOf, hx]
        exact (bodyOf_of_cut (by omega)).trans (or_iff_left (fun h => h.2 hcut)).symm
      · obtain ⟨rfl, rfl, rfl, rfl⟩ := hrest
        have hlen : (x ++ 10 :: 13 :: 10 :: more).length = x.length + (more.length + 3) := by
          rw [List.length_append]
          rfl
        rw [bodyOf, hx.afterBlank]
        refine iff_of_true rfl (.inr ⟨?_, ?_⟩)
        · exact not_cutAt_of_lt (by omega) (by omega)
        · exact not_cutAt_of_lt (by omega) (by omega)

end Blank

/-! ## The text of an answer -/

section Text

variable (r : Response)

/-- The text behind the result code. -/
def Response.afterCode : List UInt8 :=
  r.reason ++ crlf ++ (r.fields.flatMap (fun f => f ++ crlf)) ++ crlf ++ r.body

/-- The text from the blank before the result code on, up to the end of the line before the blank line. -/
def Response.lines : List UInt8 :=
  32 :: (Text.bytes "200" ++ r.reason ++ 13 :: r.fields.flatMap (fun f => 10 :: (f ++ [13])))

theorem Response.bytes_eq :
    r.bytes = r.version ++ 32 :: (Text.bytes "200" ++ r.afterCode) := by
  have hcode : Text.bytes " 200" = 32 :: Text.bytes "200" := rfl
  simp only [bytes, head, statusLine, afterCode, hcode, List.append_assoc,
    List.cons_append]

/-- The ends of the lines belong to the lines behind them as well. -/
theorem lines_shift (fields : List (List UInt8)) (rest : List UInt8) :
    crlf ++ (fields.flatMap (fun f => f ++ crlf) ++ (crlf ++ rest)) =
      13 :: (fields.flatMap (fun f => 10 :: (f ++ [13])) ++ 10 :: 13 :: 10 :: rest) := by
  induction fields with
  | nil => rfl
  | cons f fields ih =>
    simp only [crlf, List.cons_append, List.nil_append, List.cons.injEq, true_and] at ih
    simp only [List.flatMap_cons, List.append_assoc, crlf, List.cons_append, List.nil_append, ih]

theorem Response.lines_eq :
    32 :: (Text.bytes "200" ++ r.afterCode) = r.lines ++ 10 :: 13 :: 10 :: r.body := by
  rw [afterCode, lines]
  simp only [List.append_assoc, List.cons_append]
  rw [lines_shift]

theorem Response.length_head : r.head.length = r.version.length + r.lines.length + 3 := by
  have hlen := congrArg List.length (r.bytes_eq.trans (congrArg (r.version ++ ·) r.lines_eq))
  rw [bytes, List.length_append, List.length_append, List.length_append] at hlen
  simp only [List.length_cons] at hlen
  omega

theorem afterBlank_skip {a b : List UInt8} (h : 10 ∉ a) : afterBlank (a ++ b) = afterBlank b := by
  induction a with
  | nil => rfl
  | cons c a ih =>
    obtain ⟨hc, ha⟩ := not_or.mp (fun h' => h (List.mem_cons.mpr h'))
    rw [List.cons_append, afterBlank, if_neg (fun hblank => hc hblank.1.symm), ih ha]

theorem take_two_ne_crlf {f rest : List UInt8} (hne : f ≠ []) (hline : 10 ∉ f) :
    (f ++ 13 :: rest).take 2 ≠ crlf := by
  intro htake
  match f, hne, hline with
  | [a], _, _ => exact absurd (List.cons.inj (List.cons.inj htake).2).1 (by decide)
  | a :: b :: f, _, hline =>
    have hb : b = 10 := (List.cons.inj (List.cons.inj htake).2).1
    exact hline (by simp [hb])

theorem fields_blankless {fields : List (List UInt8)} (h : ∀ f ∈ fields, f ≠ [] ∧ 10 ∉ f) :
    Blankless (fields.flatMap (fun f => 10 :: (f ++ [13]))) := by
  induction fields with
  | nil => rfl
  | cons f fields ih =>
    obtain ⟨hne, hline⟩ := h f List.mem_cons_self
    have hrest := ih (fun g hg => h g (List.mem_cons_of_mem f hg))
    have hend : 10 ∉ f ++ [13] := by
      rw [List.mem_append]
      exact fun hmem => hmem.elim hline (by decide)
    rw [Blankless, List.flatMap_cons, List.cons_append, List.cons_append, afterBlank, if_neg,
      List.append_assoc, afterBlank_skip hend]
    · exact hrest
    · rintro ⟨-, htake⟩
      simp only [List.append_assoc, List.cons_append, List.nil_append] at htake
      exact take_two_ne_crlf hne hline htake

theorem Response.lines_blankless : Blankless r.lines := by
  have hline : 10 ∉ 32 :: (Text.bytes "200" ++ r.reason ++ [13]) := by
    have hcode : 10 ∉ Text.bytes "200" := by decide
    simp only [List.mem_cons, List.mem_append, not_or]
    exact ⟨by decide, ⟨hcode, r.reason_ok.1⟩, by decide, List.not_mem_nil⟩
  have hsplit : r.lines ++ [10, 13] = 32 :: (Text.bytes "200" ++ r.reason ++ [13]) ++
      (r.fields.flatMap (fun f => 10 :: (f ++ [13])) ++ [10, 13]) := by
    simp only [lines, List.append_assoc, List.cons_append, List.nil_append]
  rw [Blankless, hsplit, afterBlank_skip hline]
  exact fields_blankless r.fields_ok

theorem Response.afterCode_head (c : UInt8) (h : r.afterCode.head? = some c) : ¬ isDigit c := by
  rw [afterCode] at h
  cases hreason : r.reason with
  | nil =>
    rw [hreason] at h
    cases h
    decide
  | cons a l =>
    rw [hreason] at h
    refine r.reason_ok.2 c ?_
    rw [hreason]
    exact h

end Text

/-! ## The result code -/

section Status

variable {fnc : List Call → Int} {p : Store}

theorem recvResultCode_no_blank {length : Nat} : ∀ {buffer : Nat} {s : Inbox}, 32 ∉ p.slice buffer length →
    recvResultCode fnc p buffer length s = (false, { s with recvState := .error }) := by
  induction length with
  | zero => exact fun _ => rfl
  | succ length ih =>
    intro buffer s h
    rw [slice_cons] at h
    obtain ⟨hc, hrest⟩ := not_or.mp (fun h' => h (List.mem_cons.mpr h'))
    rw [recvResultCode, if_neg (fun heq => hc heq.symm)]
    exact ih hrest

/-- The number behind the first blank is the result code. -/
theorem recvResultCode_blank {t : List UInt8} {v : List UInt8} (hv : 32 ∉ v) :
    ∀ {buffer length : Nat} {s : Inbox}, p.slice buffer length = v ++ 32 :: t →
      recvResultCode fnc p buffer length s =
        if (strtoul 0 t).2 = [] then (false, { s with recvState := .error })
        else recvHeader fnc p (t.length + 1) (buffer + v.length) (t.length + 1)
          { s with rc := Int.bmod (strtoul 0 t).1 (2 ^ 32), recvState := .header } := by
  induction v with
  | nil =>
    intro buffer length s h
    have hlen := congrArg List.length h
    rw [Store.length_slice] at hlen
    obtain rfl : length = t.length + 1 := hlen
    rw [slice_cons] at h
    obtain ⟨hc, ht⟩ := List.cons.inj h
    rw [recvResultCode, if_pos hc, ht]
    rfl
  | cons c v ih =>
    intro buffer length s h
    obtain ⟨hc, hv'⟩ := not_or.mp (fun h' => hv (List.mem_cons.mpr h'))
    cases length with
    | zero => cases h
    | succ length =>
      rw [slice_cons] at h
      obtain ⟨hb, hrest⟩ := List.cons.inj h
      rw [recvResultCode, if_neg (fun heq => hc (heq.symm.trans hb)), ih hv' hrest, List.length_cons,
        Nat.add_assoc, Nat.add_comm 1]

theorem strtoul_code {u : List UInt8} (h : ∀ c, u.head? = some c → ¬ isDigit c) :
    strtoul 0 (bytes "200" ++ u) = (200, u) := by
  have hcode : strtoul 0 (bytes "200" ++ u) = strtoul 200 u := rfl
  rw [hcode]
  cases u with
  | nil => rfl
  | cons c u => rw [strtoul, if_neg (h c rfl)]

theorem strtoul_take (n : Nat) : (strtoul 0 ((bytes "200").take n)).2 = [] := by
  match n with
  | 0 | 1 | 2 => rfl
  | n + 3 =>
    have htake : (bytes "200").take (n + 3) = bytes "200" := List.take_of_length_le (Nat.le_add_left 3 n)
    rw [htake]
    rfl

end Status

/-! ## When the file is passed on -/

section Delivers

variable {fnc : List Call → Int} {r : Response} {seg : Segment} {segs : List Segment}

section

variable (h : ((seg :: segs).map Segment.bytes).flatten = r.bytes)

include h

theorem Cut.first :
    seg.bytes = r.bytes.take seg.length ∧ (segs.map Segment.bytes).flatten = r.bytes.drop seg.length := by
  have hlen : seg.bytes.length = seg.length := Store.length_slice _ _ _
  rw [← h, List.map_cons, List.flatten_cons]
  exact ⟨(List.take_left' hlen).symm, (List.drop_left' hlen).symm⟩

/-- A first segment that ends before or in the result code is refused. -/
theorem receive_short (hshort : ¬ r.version.length + 5 ≤ seg.length) (location : List UInt8) :
    receive fnc (seg :: segs) (freshInbox location) = { freshInbox location with recvState := .error } := by
  have hfirst := (Cut.first h).1
  rw [r.bytes_eq, List.take_append] at hfirst
  have hrecv : recvTcpRequest fnc seg.length seg.store seg.buffer (freshInbox location) =
      (false, { freshInbox location with recvState := .error }) := by
    have hcode : recvTcpRequest fnc seg.length seg.store seg.buffer (freshInbox location) =
        recvResultCode fnc seg.store seg.buffer seg.length (freshInbox location) := rfl
    rw [hcode]
    rcases Nat.lt_or_ge r.version.length seg.length with hlt | hle
    · obtain ⟨n, hn⟩ := Nat.exists_eq_add_of_lt hlt
      have hbytes : seg.store.slice seg.buffer seg.length = r.version ++ 32 :: (bytes "200").take n := by
        have hrest : seg.length - r.version.length = n + 1 := by omega
        rw [List.take_of_length_le (Nat.le_of_lt hlt), hrest, List.take_succ_cons,
          List.take_append_of_le_length (by omega : n ≤ 3)] at hfirst
        exact hfirst
      rw [recvResultCode_blank r.version_ok hbytes, if_pos (strtoul_take n)]
    · refine recvResultCode_no_blank ?_
      have hbytes : seg.store.slice seg.buffer seg.length = r.version.take seg.length := by
        rw [Nat.sub_eq_zero_of_le hle, List.take_zero, List.append_nil] at hfirst
        exact hfirst
      rw [hbytes]
      exact fun hmem => r.version_ok (List.mem_of_mem_take hmem)
  rw [receive, hrecv]
  rfl

theorem receive_long (hlong : r.version.length + 5 ≤ seg.length) (location : List UInt8) :
    Received fnc (bodyOf (seg.bytes.drop r.version.length :: segs.map Segment.bytes))
      (receive fnc (seg :: segs) (freshInbox location)) := by
  have hfirst := (Cut.first h).1
  obtain ⟨n, hn⟩ := Nat.exists_eq_add_of_le hlong
  -- the segment up to the blank, the result code and at least one more byte
  have hbytes : seg.bytes = r.version ++ 32 :: (bytes "200" ++ r.afterCode.take (n + 1)) := by
    have hrest : seg.length - r.version.length = ((bytes "200").length + (n + 1)) + 1 := by
      have hthree : (bytes "200").length = 3 := rfl
      omega
    rw [r.bytes_eq, List.take_append, List.take_of_length_le (by omega), hrest, List.take_succ_cons,
      List.take_length_add_append] at hfirst
    exact hfirst
  have hne : r.afterCode.take (n + 1) ≠ [] := by
    intro hnil
    have hempty : r.afterCode = [] := by simpa using hnil
    rw [afterCode] at hempty
    simp [crlf] at hempty
  have hhead : ∀ c, (r.afterCode.take (n + 1)).head? = some c → ¬ isDigit c := by
    intro c hc
    rw [List.head?_take, if_neg (Nat.succ_ne_zero n)] at hc
    exact r.afterCode_head c hc
  have hcode := strtoul_code hhead
  have hrecv : recvTcpRequest fnc seg.length seg.store seg.buffer (freshInbox location) =
      recvHeader fnc seg.store ((bytes "200" ++ r.afterCode.take (n + 1)).length + 1)
        (seg.buffer + r.version.length) ((bytes "200" ++ r.afterCode.take (n + 1)).length + 1)
        { freshInbox location with rc := 200, recvState := .header } := by
    have hresult : recvTcpRequest fnc seg.length seg.store seg.buffer (freshInbox location) =
        recvResultCode fnc seg.store seg.buffer seg.length (freshInbox location) := rfl
    have hmod : Int.bmod ((200 : Nat) : Int) (2 ^ 32) = 200 := by decide
    rw [hresult, recvResultCode_blank r.version_ok hbytes, hcode, if_neg hne]
    rw [hmod]
  have hslice : seg.store.slice (seg.buffer + r.version.length)
      ((bytes "200" ++ r.afterCode.take (n + 1)).length + 1) = seg.bytes.drop r.version.length := by
    have hlen := congrArg List.length hbytes
    rw [Segment.bytes, Store.length_slice, List.length_append, List.length_cons] at hlen
    rw [Segment.bytes, Store.drop_slice]
    congr 1
    omega
  have hheld : ({ freshInbox location with rc := 200, recvState := .header } : Inbox).Holds [] :=
    ⟨rfl, rfl, rfl⟩
  rw [receive, hrecv, ← hslice]
  exact receive_after_header (Nat.le_refl _) rfl hheld (receive_header segs rfl rfl hheld)

end

/-- **The file of an answer is passed on**, in blocks and with `eof` at its end, exactly if the answer is cut
    suitably and `fnc` takes the blocks. -/
theorem delivers_iff (fnc : List Call → Int) (location : List UInt8) (c : Client) (r : Response)
    (cut : Cut r) : Delivers fnc location c r cut ↔ Suits fnc r cut := by
  obtain ⟨segments, whole⟩ := cut
  cases segments with
  | nil =>
    rw [r.bytes_eq] at whole
    exact absurd whole (by simp)
  | cons seg segs =>
    by_cases hlong : r.version.length + 5 ≤ seg.length
    · have hreceived := @receive_long fnc r seg segs whole hlong location
      have hlen : seg.bytes.length = seg.length := Store.length_slice _ _ _
      have hflat : (seg.bytes.drop r.version.length :: segs.map Segment.bytes).flatten =
          r.lines ++ 10 :: 13 :: 10 :: r.body := by
        rw [← r.lines_eq, List.flatten_cons, ← List.drop_append_of_le_length (by omega)]
        rw [List.map_cons, List.flatten_cons, r.bytes_eq] at whole
        rw [whole, List.drop_left]
      have hbody := bodyOf_iff r.lines_blankless hflat
      have hcut : ∀ n, 0 < n → (CutAt ((seg :: segs).map Segment.bytes) (r.version.length + n) ↔
          CutAt (seg.bytes.drop r.version.length :: segs.map Segment.bytes) n) :=
        fun n hn => cutAt_drop hn (by omega)
      have htwo : r.head.length - 2 = r.version.length + (r.lines.length + 1) := by
        rw [r.length_head]
        omega
      have hone : r.head.length - 1 = r.version.length + (r.lines.length + 2) := by
        omega
      rw [Delivers, next_of_received c hreceived, hbody, ← hcut _ (by omega), ← hcut _ (by omega), ← htwo,
        ← hone]
      constructor
      · rintro ⟨htakes, hblank⟩
        refine ⟨⟨seg, segs, rfl, hlong⟩, hblank, ?_⟩
        rw [htwo, hone, hcut _ (by omega), hcut _ (by omega)] at hblank
        rwa [hbody.mpr hblank] at htakes
      · intro hsuits
        have hblank := hsuits.blank
        refine ⟨?_, hblank⟩
        rw [htwo, hone, hcut _ (by omega), hcut _ (by omega)] at hblank
        rw [hbody.mpr hblank]
        exact hsuits.takes
    · refine iff_of_false ?_ ?_
      · rintro ⟨rc, inbox, hphase, hcalls⟩
        rw [receive_short whole hlong] at hphase
        obtain ⟨-, rfl⟩ := Phase.returned.inj hphase
        exact absurd hcalls.symm (List.concat_ne_nil _ _)
      · rintro ⟨⟨seg', segs', heq, hlong'⟩, -, -⟩
        obtain ⟨rfl, -⟩ := List.cons.inj heq
        exact hlong hlong'

end Delivers

/-! ## A segment that begins with the blank line -/

def shortAnswer : Response where
  version := bytes "HTTP/1.0"
  reason := bytes " OK"
  fields := [bytes "Server: x"]
  body := bytes "abcd"
  version_ok := by decide
  reason_ok := ⟨by decide, fun c hc => by obtain rfl := Option.some.inj hc; decide⟩
  fields_ok := fun f hf => by
    obtain rfl := List.mem_singleton.mp hf
    exact ⟨by decide, by decide⟩

def segmentOf (text : List UInt8) : Segment := ⟨fun i => text.getD i 0, 0, text.length⟩

/-- The lines of the header in one segment, the blank line and the file in the next one. -/
def beforeBlank : Cut shortAnswer where
  segments := [segmentOf (bytes "HTTP/1.0 200 OK\r\nServer: x\r\n"), segmentOf (bytes "\r\nabcd")]
  whole := by decide

/-- The file is lost, and `fnc` is told that it is empty. -/
theorem file_lost :
    ¬ Delivers (fun _ => 1) [] ⟨.connecting [] (freshInbox []), 0, []⟩ shortAnswer beforeBlank ∧
      ∃ rc inbox, (Client.next (fun _ => 1) ⟨.connecting [] (freshInbox []), 0, []⟩
        (receive (fun _ => 1) beforeBlank.segments (freshInbox []))).phase = .returned rc inbox ∧
        inbox.calls = [⟨[], 1, true⟩] := by
  refine ⟨?_, 1, _, rfl, rfl⟩
  rintro ⟨rc, inbox, hphase, hcalls⟩
  obtain ⟨-, rfl⟩ := Phase.returned.inj hphase
  cases hcalls

end Http
