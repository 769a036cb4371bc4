import Etherboot.Bootp.Options

set_option autoImplicit false

/-! # The file at an extension path (`decode_rfc1533` in `core/nic.c`, blocks from 1 on)

The reply has been decoded up to its END, and `extdata` and `extend` point there. The blocks of the file are
put behind one another from there on, the first one without the cookie, and with the last one the options
that have come are decoded like the ones in the reply. -/

namespace Bootp

open Memory Prog

/-- `bootp_data` and the variables between two calls. `writes` is not in the source: where bytes have been
    written, and how many. -/
structure Ext where
  data : Store
  vars : Vars
  writes : List (Nat × Nat)

namespace Ext

/-- The options from `extdata` up to `extend` are decoded. An extension path among them is not followed, as
    `block` is not 0; it is the last name that the decoder asks for. -/
def walk (build : Build) (extdata extend : Nat) (s : Ext) : Ext :=
  let c : Ctl := ⟨⟨extdata, extend, none⟩, none, .walk⟩
  let d := Decoder.run build s.data c.left ⟨c, s.vars⟩
  { s with vars := { d.vars with
      names := if d.ctl.level.extpath.isSome then d.vars.names.dropLast else d.vars.names } }

/-- `decode_rfc1533(p, block, len, eof)` for a block from 1 on. Before a reply has been decoded there is nothing
    to put the bytes behind. -/
def block (build : Build) (bytes : List UInt8) (block : Nat) (eof : Bool) (s : Ext) : Bool × Ext :=
  if block = 1 ∧ bytes.take 4 ≠ rfc1533Cookie then (false, s)
  else
    let bytes := if block = 1 then bytes.drop 4 else bytes
    match s.vars.extdata, s.vars.extend with
    | some extdata, some extend =>
      if extend + bytes.length ≤ sizeofBootpd then
        let s : Ext :=
          { data := s.data.splice extend bytes
            vars := { s.vars with extend := some (extend + bytes.length) }
            writes := s.writes ++ [(extend, bytes.length)] }
        if eof then (true, s.walk build extdata (extend + bytes.length)) else (true, s)
      else
        (false, { s with data := s.data.set extdata rfc1533End, writes := s.writes ++ [(extdata, 1)] })
    | _, _ => (false, s)

/-- The blocks from the `k`th on, the last one with `eof`, until a call returns 0. -/
def feed (build : Build) : Nat → List (List UInt8) → Ext → Bool × Ext
  | _, [], s => (true, s)
  | k, x :: xs, s =>
    let r := s.block build x k xs.isEmpty
    if r.1 then feed build (k + 1) xs r.2 else r

/-- After a reply. -/
def afterReply (build : Build) (b : Store) (v : Vars) : Ext := ⟨b, decode build b v, []⟩

end Ext

/-- The blocks of a file that has `content` behind its cookie. -/
structure FileBlocks (content : List UInt8) where
  first : List UInt8
  others : List (List UInt8)
  whole : first ++ others.flatten = rfc1533Cookie ++ content
  four : 4 ≤ first.length

/-! ## Calls for blocks -/

/-- The bytes of a block that are put behind the others. -/
def payload (k : Nat) (x : List UInt8) : List UInt8 := if k = 1 then x.drop 4 else x

/-- The bytes `c` of the file have come; the option area ended at `e`. -/
structure Ext.Holds (b : Store) (v : Vars) (e : Nat) (c : List UInt8) (s : Ext) : Prop where
  data : s.data = b.splice e c
  vars : s.vars = { v with extend := some (e + c.length) }
  writes : ∀ w ∈ s.writes, w.1 + w.2 ≤ sizeofBootpd

/-- A file has been refused: the option area ends at `e` again. -/
structure Ext.Refused (b : Store) (e : Nat) (s : Ext) : Prop where
  before : ∀ i < e, s.data i = b i
  endAt : s.data e = rfc1533End
  writes : ∀ w ∈ s.writes, w.1 + w.2 ≤ sizeofBootpd

/-- The whole file has come and its options have been decoded. -/
def Ext.Decoded (build : Build) (b : Store) (v : Vars) (e : Nat) (c : List UInt8) (s : Ext) : Prop :=
  ∃ full : Ext, full.Holds b v e c ∧ s = full.walk build e (e + c.length)

section Calls

variable {build : Build} {b : Store} {v : Vars} {e : Nat} {c : List UInt8} {s : Ext}

theorem writes_append {l : List (Nat × Nat)} {w : Nat × Nat} (h : ∀ w ∈ l, w.1 + w.2 ≤ sizeofBootpd)
    (hw : w.1 + w.2 ≤ sizeofBootpd) : ∀ w' ∈ l ++ [w], w'.1 + w'.2 ≤ sizeofBootpd := by
  intro w' hmem
  rcases List.mem_append.mp hmem with hold | hnew
  · exact h w' hold
  · rw [List.mem_singleton.mp hnew]
    exact hw

section

variable (h : s.Holds b v e c) (hv : v.extdata = some e)

include h hv

theorem Ext.Holds.block_eq (k : Nat) (x : List UInt8)
    (hcookie : ¬ (k = 1 ∧ x.take 4 ≠ rfc1533Cookie)) (eof : Bool) :
    s.block build x k eof =
      if e + c.length + (payload k x).length ≤ sizeofBootpd then
        let full : Ext :=
          { data := s.data.splice (e + c.length) (payload k x)
            vars := { s.vars with extend := some (e + c.length + (payload k x).length) }
            writes := s.writes ++ [(e + c.length, (payload k x).length)] }
        if eof then (true, full.walk build e (e + c.length + (payload k x).length)) else (true, full)
      else (false, { s with data := s.data.set e rfc1533End, writes := s.writes ++ [(e, 1)] }) := by
  have hextdata : s.vars.extdata = some e := by rw [h.vars, hv]
  have hextend : s.vars.extend = some (e + c.length) := by rw [h.vars]
  rw [Ext.block, if_neg hcookie, hextdata, hextend]
  rfl

theorem Ext.Holds.block_fits (k : Nat) (x : List UInt8)
    (hcookie : ¬ (k = 1 ∧ x.take 4 ≠ rfc1533Cookie))
    (hfits : e + c.length + (payload k x).length ≤ sizeofBootpd) :
    ∃ full : Ext, full.Holds b v e (c ++ payload k x) ∧ s.block build x k false = (true, full) ∧
      s.block build x k true = (true, full.walk build e (e + (c ++ payload k x).length)) := by
  have hlen : e + (c ++ payload k x).length = e + c.length + (payload k x).length := by
    rw [List.length_append, Nat.add_assoc]
  refine ⟨{ data := s.data.splice (e + c.length) (payload k x)
            vars := { s.vars with extend := some (e + c.length + (payload k x).length) }
            writes := s.writes ++ [(e + c.length, (payload k x).length)] }, ⟨?_, ?_, ?_⟩, ?_, ?_⟩
  · rw [h.data, Store.splice_append]
  · rw [hlen, h.vars]
  · exact writes_append h.writes hfits
  · rw [h.block_eq hv k x hcookie, if_pos hfits]
    rfl
  · rw [h.block_eq hv k x hcookie, if_pos hfits, hlen]
    rfl

theorem Ext.Holds.block_refused (he : e < sizeofBootpd)
    (k : Nat) (x : List UInt8) (hcookie : ¬ (k = 1 ∧ x.take 4 ≠ rfc1533Cookie))
    (hfits : ¬ e + c.length + (payload k x).length ≤ sizeofBootpd) (eof : Bool) :
    (s.block build x k eof).1 = false ∧ (s.block build x k eof).2.Refused b e := by
  rw [h.block_eq hv k x hcookie, if_neg hfits]
  refine ⟨rfl, fun i hi => ?_, Store.set_self _ _ _, writes_append h.writes he⟩
  have hother : s.data.set e rfc1533End i = s.data i := Store.set_of_ne _ _ (Nat.ne_of_lt hi)
  refine hother.trans ?_
  rw [h.data, Store.splice_of_lt _ _ hi]

end

/-- All blocks: the file fits and is decoded as a whole, or it is refused. -/
theorem Ext.Holds.feed (hv : v.extdata = some e) (he : e < sizeofBootpd) (xs : List (List UInt8)) :
    ∀ {x : List UInt8} {k : Nat} {c : List UInt8} {s : Ext}, s.Holds b v e c → 1 ≤ k →
      ¬ (k = 1 ∧ x.take 4 ≠ rfc1533Cookie) →
      (e + (c ++ (payload k x ++ xs.flatten)).length ≤ sizeofBootpd →
        (Ext.feed build k (x :: xs) s).1 = true ∧
          (Ext.feed build k (x :: xs) s).2.Decoded build b v e (c ++ (payload k x ++ xs.flatten))) ∧
      (¬ e + (c ++ (payload k x ++ xs.flatten)).length ≤ sizeofBootpd →
        (Ext.feed build k (x :: xs) s).1 = false ∧ (Ext.feed build k (x :: xs) s).2.Refused b e) := by
  induction xs with
  | nil =>
    intro x k c s h hk hcookie
    rw [List.flatten_nil, List.append_nil]
    have hlen : e + (c ++ payload k x).length = e + c.length + (payload k x).length := by
      rw [List.length_append, Nat.add_assoc]
    constructor
    · intro hfits
      obtain ⟨full, hfull, -, hblock⟩ := h.block_fits hv k x hcookie (hlen ▸ hfits)
      have hfeed : Ext.feed build k [x] s = (true, full.walk build e (e + (c ++ payload k x).length)) := by
        rw [Ext.feed, List.isEmpty_nil, hblock, if_pos rfl, Ext.feed]
      rw [hfeed]
      exact ⟨rfl, full, hfull, rfl⟩
    · intro hfits
      obtain ⟨hfalse, hrefused⟩ := h.block_refused hv he k x hcookie (hlen ▸ hfits) true
      have hfeed : Ext.feed build k [x] s = s.block build x k true := by
        rw [Ext.feed, List.isEmpty_nil, hfalse, if_neg Bool.false_ne_true]
      rw [hfeed]
      exact ⟨hfalse, hrefused⟩
  | cons y ys ih =>
    intro x k c s h hk hcookie
    have hnext : ¬ (k + 1 = 1 ∧ y.take 4 ≠ rfc1533Cookie) := fun hk' => by omega
    have hpayload : payload (k + 1) y = y := if_neg (by omega)
    by_cases hfits : e + c.length + (payload k x).length ≤ sizeofBootpd
    · obtain ⟨full, hfull, hblock, -⟩ := h.block_fits hv k x hcookie hfits
      have hfeed : Ext.feed build k (x :: y :: ys) s = Ext.feed build (k + 1) (y :: ys) full := by
        rw [Ext.feed, List.isEmpty_cons, hblock, if_pos rfl]
      have hrest := @ih y (k + 1) _ _ hfull (by omega) hnext
      rw [hpayload, List.append_assoc, ← List.flatten_cons] at hrest
      rw [hfeed]
      exact hrest
    · obtain ⟨hfalse, hrefused⟩ := h.block_refused hv he k x hcookie hfits false
      have hfeed : Ext.feed build k (x :: y :: ys) s = s.block build x k false := by
        rw [Ext.feed, List.isEmpty_cons, hfalse, if_neg Bool.false_ne_true]
      rw [hfeed]
      refine ⟨fun hall => absurd ?_ hfits, fun _ => ⟨hfalse, hrefused⟩⟩
      rw [List.length_append, List.length_append] at hall
      omega

end Calls

/-! ## Whole files -/

section Files

variable {build : Build} {b : Store} {content : List UInt8}

theorem FileBlocks.cookie (blocks : FileBlocks content) : blocks.first.take 4 = rfc1533Cookie := by
  have h := congrArg (List.take 4) blocks.whole
  rw [List.take_append_of_le_length blocks.four] at h
  exact h

theorem FileBlocks.payload_eq (blocks : FileBlocks content) :
    payload 1 blocks.first ++ blocks.others.flatten = content := by
  have h := congrArg (List.drop 4) blocks.whole
  rw [List.drop_append_of_le_length blocks.four] at h
  exact h

theorem afterReply_holds (area : Area b) (v : Vars) :
    (Ext.afterReply build b v).Holds b (decode build b v) area.endAt [] ∧
      (decode build b v).extdata = some area.endAt := by
  obtain ⟨-, v', -, hdecode, -, hextdata, hextend⟩ := @Area.run build b area v
  rw [Ext.afterReply, hdecode]
  refine ⟨⟨(Store.splice_nil b area.endAt).symm, ?_, nofun⟩, hextdata⟩
  rw [List.length_nil, Nat.add_zero, ← hextend]

/-- Bytes in front of the place where a file is put stay as they are. -/
theorem has_of_before {t : Store} {p : Nat} {l : List UInt8} (h : b.Has p l)
    (hbefore : ∀ i < p + l.length, t i = b i) : t.Has p l := by
  refine (Store.slice_congr fun i hi => ?_).trans h
  exact hbefore (p + i) (by omega)

/-- The options of a file set what they mean, after those of the reply. -/
theorem Ext.Decoded.settings {area : Area b} {v : Vars} {s : Ext} {parts : List Part}
    (h : s.Decoded build b (decode build b v) area.endAt (parts.flatMap Part.bytes ++ [rfc1533End]))
    (hok : ∀ x ∈ parts, x.Ok) :
    s.vars.settings s.data =
      (area.parts ++ parts).foldl (Settings.takePart build) (v.settings s.data).begin := by
  obtain ⟨full, hfull, rfl⟩ := h
  generalize hcontent : parts.flatMap Part.bytes ++ [rfc1533End] = content at hfull
  have hlen : (parts.flatMap Part.bytes).length < content.length := by
    rw [← hcontent, List.length_append]
    exact Nat.lt_succ_self _
  have hhas : full.data.Has area.endAt (parts.flatMap Part.bytes ++ [rfc1533End]) := by
    rw [hcontent, hfull.data]
    exact Store.slice_splice_self b area.endAt content
  have hreply : full.data.Has (vendOffset + 4) (area.parts.flatMap Part.bytes) := by
    refine has_of_before (Store.has_append.mp area.hasParts).1 fun i hi => ?_
    rw [hfull.data]
    exact Store.splice_of_lt b content hi
  obtain ⟨extpath, v', hreach, hsettings, -⟩ :=
    @reaches_sequence build full.data area.endAt (area.endAt + content.length) none full.vars parts hok hhas
      (by omega)
  have hrun := run_of_reaches hreach rfl (Ctl.after_done build full.data (Nat.le_refl _))
  have hwalk : (full.walk build area.endAt (area.endAt + content.length)).vars.settings full.data =
      v'.settings full.data := by
    exact congrArg (fun d : Decoder => d.vars.settings full.data) hrun
  obtain ⟨-, v1, -, hdecode, hfold, -⟩ := @Area.run build b area v
  have hvars : full.vars.settings full.data = v1.settings full.data := by
    rw [hfull.vars, hdecode]
    rfl
  have hdata : (full.walk build area.endAt (area.endAt + content.length)).data = full.data := rfl
  rw [hdata, List.foldl_append, ← hfold full.data hreply, ← hvars,
    ← hsettings full.data (Store.has_append.mp hhas).1]
  exact hwalk

/-- The vendor area of the reply is there again. -/
def Ext.Refused.area {area : Area b} {s : Ext} (h : s.Refused b area.endAt) : Area s.data where
  parts := area.parts
  ok := area.ok
  has := by
    have hhas := area.has
    rw [Store.has_append] at hhas ⊢
    have hend : vendOffset + (rfc1533Cookie ++ area.parts.flatMap Part.bytes).length = area.endAt := by
      rw [List.length_append, ← Nat.add_assoc]
      rfl
    refine ⟨has_of_before hhas.1 fun i hi => h.before i (hend ▸ hi), ?_⟩
    rw [hend]
    exact Store.has_cons.mpr ⟨h.endAt, rfl⟩
  fits := area.fits

/-- **The blocks of an extension file.** If the file fits, all calls return 1, and what they leave is what one
    call for the whole file leaves; if it is a sequence of options and END, it sets what they mean after those
    of the reply. If the file does not fit, a call returns 0, and the vendor area is the one of the reply
    again. Nothing is written behind `bootp_data`. -/
theorem extension_file (build : Build) (b : Store) (area : Area b) (v : Vars) (content : List UInt8)
    (blocks : FileBlocks content) :
    (area.endAt + content.length ≤ sizeofBootpd →
      ((Ext.afterReply build b v).feed build 1 (blocks.first :: blocks.others)).1 = true ∧
      (((Ext.afterReply build b v).feed build 1 (blocks.first :: blocks.others)).2.data =
          ((Ext.afterReply build b v).block build (rfc1533Cookie ++ content) 1 true).2.data ∧
        ((Ext.afterReply build b v).feed build 1 (blocks.first :: blocks.others)).2.vars =
          ((Ext.afterReply build b v).block build (rfc1533Cookie ++ content) 1 true).2.vars) ∧
      ∀ parts : List Part, (∀ x ∈ parts, x.Ok) → content = parts.flatMap Part.bytes ++ [rfc1533End] →
        ((Ext.afterReply build b v).feed build 1 (blocks.first :: blocks.others)).2.vars.settings
            ((Ext.afterReply build b v).feed build 1 (blocks.first :: blocks.others)).2.data =
          (area.parts ++ parts).foldl (Settings.takePart build)
            (v.settings
              ((Ext.afterReply build b v).feed build 1 (blocks.first :: blocks.others)).2.data).begin) ∧
    (¬ area.endAt + content.length ≤ sizeofBootpd →
      ((Ext.afterReply build b v).feed build 1 (blocks.first :: blocks.others)).1 = false ∧
      ∃ area' : Area ((Ext.afterReply build b v).feed build 1 (blocks.first :: blocks.others)).2.data,
        area'.parts = area.parts) ∧
    ∀ w ∈ ((Ext.afterReply build b v).feed build 1 (blocks.first :: blocks.others)).2.writes,
      w.1 + w.2 ≤ sizeofBootpd := by
  obtain ⟨hholds, hextdata⟩ := @afterReply_holds build b area v
  have hcookie : ¬ (1 = 1 ∧ blocks.first.take 4 ≠ rfc1533Cookie) := fun h => h.2 blocks.cookie
  obtain ⟨hfits, hrefused⟩ := @Ext.Holds.feed build b _ _ hextdata area.endAt_lt blocks.others blocks.first 1
    [] _ hholds (Nat.le_refl 1) hcookie
  rw [List.nil_append, blocks.payload_eq] at hfits hrefused
  refine ⟨fun h => ?_, fun h => ?_, ?_⟩
  · obtain ⟨hok, full, hfull, hwalk⟩ := hfits h
    -- the same with one block
    have hone : ¬ (1 = 1 ∧ (rfc1533Cookie ++ content).take 4 ≠ rfc1533Cookie) := fun h => h.2 rfl
    obtain ⟨full', hfull', -, hblock⟩ := hholds.block_fits hextdata 1 (rfc1533Cookie ++ content) hone h
    have hsame : full'.data = full.data ∧ full'.vars = full.vars :=
      ⟨hfull'.data.trans hfull.data.symm, hfull'.vars.trans hfull.vars.symm⟩
    refine ⟨hok, ⟨?_, ?_⟩, ?_⟩
    · rw [hblock, hwalk]
      exact hsame.1.symm
    · rw [hblock, hwalk]
      simp only [Ext.walk, hsame.1, hsame.2]
      rfl
    · rintro parts hparts rfl
      exact Ext.Decoded.settings ⟨full, hfull, hwalk⟩ hparts
  · obtain ⟨hfalse, hr⟩ := hrefused h
    exact ⟨hfalse, hr.area, rfl⟩
  · by_cases h : area.endAt + content.length ≤ sizeofBootpd
    · obtain ⟨-, full, hfull, hwalk⟩ := hfits h
      rw [hwalk]
      exact hfull.writes
    · exact (hrefused h).2.writes

end Files

end Bootp
