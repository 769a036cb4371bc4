import Etherboot.Lib.Emit
import Etherboot.Tftp.Oack

set_option autoImplicit false

/-! # The negotiation of the block size

An option acknowledgement is a list of strings, names and values in turn. `Agreed` says what comes of it by
the rules of the protocol. The scan of `tftp_block` sees strings only: it takes any string that is `blksize`
for the name of the option, whether it stands in the place of a name or of a value, and behind a number it
skips one string too many. `walk` is the scan on strings, `none` if it goes on behind the last; it does not
look at the last ten bytes. `negotiates_iff` says exactly when the two come to the same. -/

namespace Tftp

open Memory Prog Strings
open Text (Digits)

/-! ## Option lists -/

structure Opt where
  name : List UInt8
  value : List UInt8
  name_text : 0 ∉ name
  value_text : 0 ∉ value

def strings (opts : List Opt) : List (List UInt8) := opts.flatMap fun o => [o.name, o.value]

/-- The block size that the options give: the one paired with the name, or 512 if it is not there. -/
def Paired (opts : List Opt) (n : Nat) : Prop :=
  ((∀ o ∈ opts, ¬ IsBlksize o.name) ∧ n = defaultsizePacket) ∨
    ∃ o ∈ opts, IsBlksize o.name ∧ n = number o.value

/-- What comes of an acknowledgement. -/
inductive Verdict where
  | continues (blksize : Int)
  | aborts
  deriving DecidableEq, Repr

/-- A block size is accepted if it is neither below 512 nor above the one requested. -/
def judge (requested : Nat) (blksize : Int) : Verdict :=
  if blksize < defaultsizePacket ∨ blksize > requested then .aborts else .continues blksize

/-- The verdict on a block size that the options give. -/
def Agreed (requested : Nat) (opts : List Opt) (v : Verdict) : Prop :=
  ∃ n, Paired opts n ∧ v = judge requested n

/-! ## The scan, on strings -/

/-- The text that is taken for the block size in the end, if `taken` is the last one so far. -/
def walk : List (List UInt8) → Option (List UInt8) → Option (Option (List UInt8))
  | [], taken => some taken
  | s :: rest, taken =>
    if (joined (s :: rest)).length ≤ 10 then some taken
    else if IsBlksize s then
      match rest with
      | [] => none
      | v :: rest =>
        if Digits v then
          match rest with
          | [] => none
          | _ :: rest => walk rest (some v)
        else walk rest (some v)
    else walk rest taken

/-- `blksize = strtoul(text)` -/
def reading (old : Int) : Option (List UInt8) → Int
  | none => old
  | some v => toInt (number v % 2 ^ 32)

/-! ## The scan, on bytes -/

section Bytes

variable {b : Store} {p recvlen : Nat} {s v x : List UInt8} {ss rest : List (List UInt8)}

theorem length_joined_cons (s : List UInt8) (ss : List (List UInt8)) :
    (joined (s :: ss)).length = s.length + 1 + (joined ss).length := by
  rw [joined_cons, List.length_append, List.length_cons]
  omega

/-- A turn of the scan takes it from `p` to `r`, inside the payload. -/
def Goes (b : Store) (recvlen : Nat) (old : Int) (p : Nat) (new : Int) (r : Nat) : Prop :=
  ∀ fuel, (oackLoop recvlen (fuel + 1) old p).Leads (2 + recvlen) b (oackLoop recvlen fuel new r) b

section Turns

variable (hsmall : recvlen ≤ maxPacket) (old : Int)
include hsmall

/-- One turn of the scan, once it is known what its parts do; `s` is the string that is skipped. -/
theorem goes_of {q m : Nat} {new : Int} (hp : p + 10 < 2 + recvlen)
    (hopt : (oackOption old p).Ends m b (some (new, q)) b) (hm : m ≤ 2 + recvlen) (hs : StringAt b q s)
    (hq : q + s.length + 1 ≤ 2 + recvlen) : Goes b recvlen old p new (q + s.length + 1) := by
  intro fuel
  have hlen : s.length < scanLimit := by
    unfold maxPacket at hsmall
    unfold scanLimit
    omega
  rw [oackLoop, if_pos hp]
  exact ((hopt.mono hm).bind _).trans (((skipString_string hs hlen).mono hq).bind _)

theorem goes_other (h : At b (2 + recvlen) p (s :: rest)) (hlong : ¬ (joined (s :: rest)).length ≤ 10)
    (hs : ¬ IsBlksize s) : Goes b recvlen old p old (p + s.length + 1) := by
  obtain ⟨hstring, hlt, -⟩ := h.string
  have hlast := h.last
  exact goes_of hsmall old (by omega) (oackOption_other hs hstring old) hlt hstring hlt

theorem oackOption_ahead (h : At b (2 + recvlen) p (s :: v :: rest)) (hs : IsBlksize s) :
    (oackOption old p).Ends (p + s.length + 1 + v.length + 1) b
      (some (toInt (number v % 2 ^ 32), p + s.length + 1 + (leading v).length + 1)) b := by
  obtain ⟨hstring, -, htail⟩ := h.string
  obtain ⟨hv, hlt, -⟩ := htail.string
  refine oackOption_taken hs hstring hv ?_ old
  unfold maxPacket at hsmall
  unfold scanLimit
  omega

/-- Behind a text that is not a number, the scan comes to the next string: the first character that is no
    digit is passed as if it were the zero. -/
theorem goes_text (h : At b (2 + recvlen) p (s :: v :: rest))
    (hlong : ¬ (joined (s :: v :: rest)).length ≤ 10) (hs : IsBlksize s) (hv : ¬ Digits v) :
    Goes b recvlen old p (toInt (number v % 2 ^ 32)) (p + s.length + 1 + v.length + 1) := by
  obtain ⟨hstring, hlt, -⟩ := h.string.2.2.string
  have hlast := h.last
  obtain ⟨hall, -⟩ | ⟨-, c, r, heq, -⟩ := leading_cases v
  · exact absurd hall hv
  · have hlen : v.length = (leading v).length + 1 + r.length := by
      have := congrArg List.length heq
      rw [List.length_append, List.length_cons] at this
      omega
    have hat : p + s.length + 1 + v.length + 1 = p + s.length + 1 + (leading v).length + 1 + r.length + 1 := by
      omega
    rw [heq] at hstring
    rw [hat]
    exact goes_of hsmall old (by omega) (oackOption_ahead hsmall old h hs) hlt
      (stringAt_cons.mp hstring.drop).2.2 (by omega)

/-- Behind a number, one string more is skipped. -/
theorem goes_number (h : At b (2 + recvlen) p (s :: v :: x :: rest))
    (hlong : ¬ (joined (s :: v :: x :: rest)).length ≤ 10) (hs : IsBlksize s) (hv : Digits v) :
    Goes b recvlen old p (toInt (number v % 2 ^ 32)) (p + s.length + 1 + v.length + 1 + x.length + 1) := by
  have hlast := h.last
  obtain ⟨-, hlt, htail⟩ := h.string.2.2.string
  obtain ⟨hx, hxlt, -⟩ := htail.string
  have hopt := oackOption_ahead hsmall old h hs
  rw [leading_eq_self hv] at hopt
  exact goes_of hsmall old (by omega) hopt hlt hx hxlt

/-- If the number ends the payload, that string lies behind it. -/
theorem oackLoop_overrun (h : At b (2 + recvlen) p [s, v]) (hlong : ¬ (joined [s, v]).length ≤ 10)
    (hs : IsBlksize s) (hv : Digits v) (fuel : Nat) :
    ¬ (oackLoop recvlen (fuel + 1) old p).Within (2 + recvlen) b := by
  have hopt := (oackOption_ahead hsmall old h hs).run
  have hlast := h.last
  have hat : p + s.length + 1 + v.length + 1 = 2 + recvlen := h.string.2.2.string.2.2.end_of_nil
  rw [leading_eq_self hv, hat] at hopt
  intro hin
  obtain ⟨k, hk⟩ : ∃ k, scanLimit = k + 1 := ⟨2 ^ 32 - 1, rfl⟩
  rw [oackLoop, if_pos (by omega), within_bind_of hopt, within_bind, hk, skipString,
    within_readByte_bind] at hin
  exact absurd hin.2.1.1 (Nat.lt_irrefl _)

end Turns

/-- What the scan has come to: the text taken in the end decides, or something behind the payload has been
    looked at. -/
def Scans (b : Store) (recvlen fuel : Nat) (now : Int) (p : Nat) (old : Int) :
    Option (Option (List UInt8)) → Prop
  | some t => (oackLoop recvlen fuel now p).Ends (2 + recvlen) b (some (reading old t)) b
  | none => ¬ (oackLoop recvlen fuel now p).Within (2 + recvlen) b

theorem scans_stop {fuel : Nat} {old : Int} {t : Option (List UInt8)}
    (hp : 2 + recvlen ≤ p + 10) : Scans b recvlen (fuel + 1) (reading old t) p old (some t) := by
  have hstop : ¬ p + 10 < 2 + recvlen := Nat.not_lt.mpr hp
  rw [Scans, oackLoop, if_neg hstop]
  exact ends_pure _ _ _

theorem Goes.scans {r fuel : Nat} {now new old : Int} {w : Option (Option (List UInt8))}
    (h : Goes b recvlen now p new r) (hrest : Scans b recvlen fuel new r old w) :
    Scans b recvlen (fuel + 1) now p old w := by
  cases w with
  | none => exact fun hin => hrest ((h fuel).within.mp hin)
  | some t => exact (h fuel).ends hrest

/-- The scan on bytes is the one on strings. -/
theorem oackLoop_walk (hsmall : recvlen ≤ maxPacket) (old : Int)
    (ss : List (List UInt8)) (t : Option (List UInt8)) :
    ∀ {fuel p : Nat}, At b (2 + recvlen) p ss → ss.length < fuel →
      Scans b recvlen fuel (reading old t) p old (walk ss t) := by
  fun_induction walk ss t with
  | case1 t =>
    intro fuel p h hfuel
    have hp := h.end_of_nil
    obtain ⟨fuel, rfl⟩ := Nat.exists_eq_succ_of_ne_zero (Nat.ne_of_gt hfuel)
    exact scans_stop (by omega)
  | case2 s rest t hshort =>
    intro fuel p h hfuel
    have hp := h.last
    obtain ⟨fuel, rfl⟩ := Nat.exists_eq_succ_of_ne_zero (Nat.ne_zero_of_lt hfuel)
    exact scans_stop (by omega)
  | case3 s t hs hlong =>
    -- the name alone takes eight bytes
    refine absurd ?_ hlong
    rw [length_joined_cons, length_isBlksize hs]
    decide
  | case4 s t hs v hv hlong =>
    intro fuel p h hfuel
    obtain ⟨fuel, rfl⟩ := Nat.exists_eq_succ_of_ne_zero (Nat.ne_zero_of_lt hfuel)
    exact oackLoop_overrun hsmall _ h hlong hs hv fuel
  | case5 s t hs v hv x rest hlong ih =>
    intro fuel p h hfuel
    obtain ⟨fuel, rfl⟩ := Nat.exists_eq_succ_of_ne_zero (Nat.ne_zero_of_lt hfuel)
    simp only [List.length_cons] at hfuel
    exact (goes_number hsmall _ h hlong hs hv).scans (ih h.string.2.2.string.2.2.string.2.2 (by omega))
  | case6 s t hs v rest hv hlong ih =>
    intro fuel p h hfuel
    obtain ⟨fuel, rfl⟩ := Nat.exists_eq_succ_of_ne_zero (Nat.ne_zero_of_lt hfuel)
    simp only [List.length_cons] at hfuel
    exact (goes_text hsmall _ h hlong hs hv).scans (ih h.string.2.2.string.2.2 (by omega))
  | case7 s rest t hlong hs ih =>
    intro fuel p h hfuel
    obtain ⟨fuel, rfl⟩ := Nat.exists_eq_succ_of_ne_zero (Nat.ne_zero_of_lt hfuel)
    exact (goes_other hsmall _ h hlong hs).scans (ih h.string.2.2 (Nat.lt_of_succ_lt_succ hfuel))

theorem last_zero : ∀ {p : Nat} {s : List UInt8}, At b (2 + recvlen) p (s :: ss) → b (recvlen + 1) = 0 := by
  induction ss with
  | nil =>
    intro p s h
    obtain ⟨hstring, -, htail⟩ := h.string
    have hat : p + s.length = recvlen + 1 := by
      have := htail.end_of_nil
      omega
    rw [← hat]
    exact hstring.null
  | cons x ss ih =>
    intro p s h
    exact ih h.string.2.2

/-- Forcing the last byte to zero changes no string. -/
theorem at_forced (h : At b (2 + recvlen) 2 ss) : At (b.set (recvlen + 1) 0) (2 + recvlen) 2 ss := by
  cases ss with
  | nil => exact ⟨rfl, h.last, h.noNull⟩
  | cons s ss =>
    rw [Store.set_eq_self (last_zero h)]
    exact h

theorem length_le_joined (ss : List (List UInt8)) : ss.length ≤ (joined ss).length := by
  induction ss with
  | nil => exact le_rfl
  | cons s ss ih =>
    rw [length_joined_cons, List.length_cons]
    omega

/-- The last byte is forced to zero, then the scan begins. -/
theorem oackBlksize_forced (recvlen : Nat) (old : Int) :
    (oackBlksize true recvlen old).Leads (2 + recvlen) b
      (if recvlen ≤ maxPacket then oackLoop recvlen scanLimit old 2 else pure (some old))
      (b.set (recvlen + 1) 0) := by
  have hwrite : (writeByte (recvlen + 1) 0).Ends (2 + recvlen) b () (b.set (recvlen + 1) 0) :=
    ⟨run_writeByte _ _ _, within_writeByte.mpr (by omega)⟩
  simpa only [oackBlksize, true_and] using hwrite.bind _

theorem oackBlksize_walk (h : At b (2 + recvlen) 2 ss) (hsmall : recvlen ≤ maxPacket) (old : Int) :
    (∀ t, walk ss none = some t → ((oackBlksize true recvlen old).run b).1 = some (reading old t) ∧
      (oackBlksize true recvlen old).Within (2 + recvlen) b) ∧
    (walk ss none = none → ¬ (oackBlksize true recvlen old).Within (2 + recvlen) b) := by
  have hfuel : ss.length < scanLimit := by
    have hcount := length_le_joined ss
    have hends := h.last
    unfold maxPacket at hsmall
    unfold scanLimit
    omega
  have hscan := oackLoop_walk hsmall old ss none (at_forced h) hfuel
  have hforced := oackBlksize_forced (b := b) recvlen old
  rw [if_pos hsmall] at hforced
  refine ⟨fun t ht => ?_, fun ht => ?_⟩
  · rw [ht] at hscan
    exact ⟨congrArg Prod.fst (hforced.ends hscan).run, (hforced.ends hscan).within⟩
  · rw [ht] at hscan
    exact fun hin => hscan (hforced.within.mp hin)

/-- A payload that is too long is not looked at. -/
theorem oackBlksize_long (hlong : maxPacket < recvlen) (old : Int) :
    ((oackBlksize true recvlen old).run b).1 = some old ∧
      (oackBlksize true recvlen old).Within (2 + recvlen) b := by
  have hforced := oackBlksize_forced (b := b) recvlen old
  rw [if_neg (Nat.not_le.mpr hlong)] at hforced
  exact ⟨congrArg Prod.fst hforced.run, hforced.within.mpr (within_pure _ _ _)⟩

end Bytes

/-! ## The turn -/

/-- A turn that ends in a verdict: the client keeps the block size and acknowledges, or it sends an error
    and gives up. -/
def Concludes (s : Statics) (t : Turn) : Verdict → Prop
  | .continues n => t = sendAck { s with blksize := n } .wait
  | .aborts => t.sent = [⟨s.lport, s.rport, .error 8 "RFC1782 error"⟩] ∧ t.out = .ret 0

/-- **The negotiation is right.** An acknowledgement of the options `opts` makes the client look at the
    payload only, and act on a block size that they give. -/
def Negotiates (s : Statics) (rq : Request) (p : Packet) (opts : List Opt) : Prop :=
  (oackBlksize true p.recvlen s.blksize).Within (2 + p.recvlen) p.body ∧
    ∃ v, Agreed rq.blksize.toNat opts v ∧ Concludes (s.noted p) (onPacket s (some rq) p) v

section Turn

variable {s : Statics} {rq : Request} {p : Packet}

theorem concludes_iff (hop : p.opcode = opOack) (hidx : s.blockidx = 0) {n : Int}
    (hrun : ((oackBlksize true p.recvlen s.blksize).run p.body).1 = some n) (v : Verdict) :
    Concludes (s.noted p) (onPacket s (some rq) p) v ↔ v = judge rq.blksize.toNat n := by
  have hzero : ¬ (s.noted p).blockidx ≠ 0 := fun h => h hidx
  rw [onPacket_opOack hop, onOack, if_neg hzero, Statics.noted_blksize, hrun, judge]
  by_cases hbad : n < defaultsizePacket ∨ n > rq.blksize.toNat
  · simp only [if_pos hbad]
    cases v with
    | continues m => simp [Concludes, sendAck, transmit]
    | aborts => simp [Concludes, transmit]
  · simp only [if_neg hbad]
    cases v with
    | continues m => simp [Concludes, sendAck, transmit, eq_comm]
    | aborts => simp [Concludes, sendAck, transmit]

theorem negotiates_iff_of_run (hop : p.opcode = opOack) (hidx : s.blockidx = 0) (opts : List Opt) {n : Int}
    (hrun : ((oackBlksize true p.recvlen s.blksize).run p.body).1 = some n)
    (hin : (oackBlksize true p.recvlen s.blksize).Within (2 + p.recvlen) p.body) :
    Negotiates s rq p opts ↔ Agreed rq.blksize.toNat opts (judge rq.blksize.toNat n) := by
  simp only [Negotiates, hin, concludes_iff hop hidx hrun, true_and, exists_eq_right]

end Turn

/-! ## The scan on plain option lists -/

theorem strings_cons (o : Opt) (opts : List Opt) :
    strings (o :: opts) = o.name :: o.value :: strings opts := by
  rfl

theorem strings_append (xs ys : List Opt) : strings (xs ++ ys) = strings xs ++ strings ys := by
  rw [strings, List.flatMap_append]
  rfl

section Walk

variable {s v x : List UInt8} {ss rest : List (List UInt8)}

theorem walk_short (h : (joined ss).length ≤ 10) (t : Option (List UInt8)) : walk ss t = some t := by
  cases ss with
  | nil => rfl
  | cons s ss =>
    rw [walk.eq_def]
    simp only [if_pos h]

theorem walk_skip (hs : ¬ IsBlksize s) (hlong : ¬ (joined (s :: rest)).length ≤ 10)
    (t : Option (List UInt8)) : walk (s :: rest) t = walk rest t := by
  rw [walk.eq_def]
  simp only [if_neg hlong, if_neg hs]

theorem walk_text (hs : IsBlksize s) (hlong : ¬ (joined (s :: v :: rest)).length ≤ 10)
    (hv : ¬ Digits v) (t : Option (List UInt8)) : walk (s :: v :: rest) t = walk rest (some v) := by
  rw [walk.eq_def]
  simp only [if_neg hlong, if_pos hs, if_neg hv]

theorem walk_number (hs : IsBlksize s) (hlong : ¬ (joined (s :: v :: x :: rest)).length ≤ 10)
    (hv : Digits v) (t : Option (List UInt8)) : walk (s :: v :: x :: rest) t = walk rest (some v) := by
  rw [walk.eq_def]
  simp only [if_neg hlong, if_pos hs, if_pos hv]

theorem walk_overrun (hs : IsBlksize s) (hlong : ¬ (joined [s, v]).length ≤ 10)
    (hv : Digits v) (t : Option (List UInt8)) : walk [s, v] t = none := by
  rw [walk.eq_def]
  simp only [if_neg hlong, if_pos hs, if_pos hv]

/-- Other strings in front are passed, as long as there are ten bytes left. -/
theorem walk_append {xs : List (List UInt8)} (h : ∀ s ∈ xs, ¬ IsBlksize s) (t : Option (List UInt8)) :
    walk (xs ++ ss) t = walk ss t := by
  induction xs with
  | nil => rfl
  | cons x xs ih =>
    obtain ⟨hx, hxs⟩ := List.forall_mem_cons.mp h
    by_cases hshort : (joined (x :: (xs ++ ss))).length ≤ 10
    · have hle : (joined ss).length ≤ (joined (x :: (xs ++ ss))).length := by
        rw [length_joined_cons, joined, joined, List.flatMap_append, List.length_append]
        omega
      rw [List.cons_append, walk_short hshort, walk_short (hle.trans hshort)]
    · rw [List.cons_append, walk_skip hx hshort, ih hxs]

theorem walk_other (h : ∀ s ∈ ss, ¬ IsBlksize s) (t : Option (List UInt8)) : walk ss t = some t := by
  rw [← List.append_nil ss, walk_append h]
  rfl

end Walk

/-- `blksize` stands in the payload as a name, once at most. -/
def Plain (opts : List Opt) : Prop :=
  (∀ o ∈ opts, ¬ IsBlksize o.value) ∧
    opts.Pairwise fun o o' => ¬ (IsBlksize o.name ∧ IsBlksize o'.name)
  deriving Decidable

/-- The option, and those behind it. -/
def fromBlksize (opts : List Opt) : List Opt := opts.dropWhile fun o => decide (¬ IsBlksize o.name)

theorem fromBlksize_cases (opts : List Opt) :
    (fromBlksize opts = [] ∧ ∀ o ∈ opts, ¬ IsBlksize o.name) ∨
      ∃ before o behind, fromBlksize opts = o :: behind ∧ opts = before ++ o :: behind ∧
        IsBlksize o.name ∧ ∀ o' ∈ before, ¬ IsBlksize o'.name := by
  induction opts with
  | nil => exact Or.inl ⟨rfl, by simp⟩
  | cons o opts ih =>
    by_cases ho : IsBlksize o.name
    · refine Or.inr ⟨[], o, opts, ?_, rfl, ho, by simp⟩
      rw [fromBlksize, List.dropWhile_cons, if_neg (by simp [ho])]
    · have hdrop : fromBlksize (o :: opts) = fromBlksize opts := by
        rw [fromBlksize, List.dropWhile_cons, if_pos (by simp [ho]), fromBlksize]
      rw [hdrop]
      rcases ih with ⟨hnil, hall⟩ | ⟨before, o', behind, heq, hsplit, ho', hbefore⟩
      · exact Or.inl ⟨hnil, List.forall_mem_cons.mpr ⟨ho, hall⟩⟩
      · refine Or.inr ⟨o :: before, o', behind, heq, ?_, ho', List.forall_mem_cons.mpr ⟨ho, hbefore⟩⟩
        rw [hsplit, List.cons_append]

theorem zero_not_mem_strings (opts : List Opt) : ∀ s ∈ strings opts, 0 ∉ s := by
  intro s hs
  obtain ⟨o, -, hmem⟩ := List.mem_flatMap.mp hs
  simp only [List.mem_cons, List.not_mem_nil, or_false] at hmem
  rcases hmem with rfl | rfl
  · exact o.name_text
  · exact o.value_text

variable {opts : List Opt}

theorem not_isBlksize_strings (hname : ∀ o ∈ opts, ¬ IsBlksize o.name)
    (hvalue : ∀ o ∈ opts, ¬ IsBlksize o.value) : ∀ s ∈ strings opts, ¬ IsBlksize s := by
  intro s hs
  obtain ⟨o, ho, hmem⟩ := List.mem_flatMap.mp hs
  simp only [List.mem_cons, List.not_mem_nil, or_false] at hmem
  rcases hmem with rfl | rfl
  · exact hname o ho
  · exact hvalue o ho

/-- A number that does not fit in 32 bits, and is taken for one that would be accepted. -/
def Wraps (requested n : Nat) : Prop :=
  2 ^ 32 ≤ n ∧ defaultsizePacket ≤ n % 2 ^ 32 ∧ n % 2 ^ 32 ≤ requested

theorem judge_toInt {requested : Nat} (hrq : requested < 65536) (n : Nat) :
    judge requested (toInt (n % 2 ^ 32)) = judge requested n ↔ ¬ Wraps requested n := by
  unfold Wraps toInt defaultsizePacket
  by_cases hbig : 2 ^ 32 ≤ n
  · have habort : judge requested n = .aborts := by
      rw [judge, if_pos (Or.inr (by omega))]
    rw [habort, judge]
    unfold defaultsizePacket
    split <;> simp only [ite_eq_left_iff, reduceCtorEq, imp_false, not_not] <;> omega
  · rw [Nat.mod_eq_of_lt (by omega)]
    have hno : ¬ (2 ^ 32 ≤ n ∧ 512 ≤ n ∧ n ≤ requested) := fun h => hbig h.1
    simp only [hno, not_false_iff, iff_true]
    by_cases hhalf : n < 2 ^ 31
    · rw [if_pos hhalf]
    · rw [if_neg hhalf, judge, judge, if_pos (Or.inl ?_), if_pos (Or.inr (by omega))]
      omega

/-- The block size a plain option list gives comes through, from the option on: without the option, if it
    is the one so far; as the last option, if it is no number, or of one digit and the one so far is no
    better; else if it fits in 32 bits. -/
def OptionSuits (old : Int) (requested : Nat) : List Opt → Prop
  | [] => judge requested old = judge requested defaultsizePacket
  | [o] =>
    if o.value.length ≤ 1 then judge requested old = .aborts
    else ¬ Digits o.value ∧ ¬ Wraps requested (number o.value)
  | o :: _ :: _ => ¬ Wraps requested (number o.value)

theorem agreed_none (h : ∀ o ∈ opts, ¬ IsBlksize o.name) (requested : Nat) (v : Verdict) :
    Agreed requested opts v ↔ v = judge requested defaultsizePacket := by
  constructor
  · rintro ⟨n, ⟨-, hn⟩ | ⟨o, ho, hblk, -⟩, hv⟩
    · rw [hv, hn]
    · exact absurd hblk (h o ho)
  · intro hv
    exact ⟨defaultsizePacket, Or.inl ⟨h, rfl⟩, hv⟩

theorem agreed_one {before behind : List Opt} {o : Opt} (ho : IsBlksize o.name)
    (hbefore : ∀ o' ∈ before, ¬ IsBlksize o'.name) (hbehind : ∀ o' ∈ behind, ¬ IsBlksize o'.name)
    (requested : Nat) (v : Verdict) :
    Agreed requested (before ++ o :: behind) v ↔ v = judge requested (number o.value) := by
  have hmem : o ∈ before ++ o :: behind := by simp
  constructor
  · rintro ⟨n, ⟨hnone, -⟩ | ⟨o', ho', hblk, hn⟩, hv⟩
    · exact absurd ho (hnone o hmem)
    · rcases List.mem_append.mp ho' with hmem' | hmem'
      · exact absurd hblk (hbefore o' hmem')
      · rcases List.mem_cons.mp hmem' with rfl | hmem'
        · rw [hv, hn]
        · exact absurd hblk (hbehind o' hmem')
  · intro hv
    exact ⟨number o.value, Or.inr ⟨o, hmem, ho, rfl⟩, hv⟩

/-- A number of one digit is never accepted. -/
theorem judge_short {v : List UInt8} (hv : v.length ≤ 1) (requested : Nat) :
    judge requested (number v) = .aborts := by
  have hlt := decimal_lt (leading v) (leading_digits v) 0
  have hlen : (leading v).length ≤ 1 := (List.takeWhile_sublist _).length_le.trans hv
  have hpow : 10 ^ (leading v).length ≤ 10 ^ 1 := Nat.pow_le_pow_right (by decide) hlen
  have hsmall : number v < 10 := by
    unfold number
    omega
  rw [judge, if_pos (Or.inl ?_)]
  unfold defaultsizePacket
  omega

/-- From the option on, the text taken is its value. -/
theorem walk_option {o : Opt} {behind : List Opt} (ho : IsBlksize o.name)
    (hname : ∀ o' ∈ behind, ¬ IsBlksize o'.name) (hvalue : ∀ o' ∈ behind, ¬ IsBlksize o'.value) :
    walk (strings (o :: behind)) none =
      if behind = [] ∧ o.value.length ≤ 1 then some none
      else if behind = [] ∧ Digits o.value then none
      else some (some o.value) := by
  have hother := not_isBlksize_strings hname hvalue
  have hseven := length_isBlksize ho
  rw [strings_cons]
  cases behind with
  | nil =>
    have hlen : (joined [o.name, o.value]).length = 9 + o.value.length := by
      rw [length_joined_cons, length_joined_cons, hseven, joined, List.flatMap_nil,
        List.length_nil]
      omega
    by_cases hshort : o.value.length ≤ 1
    · rw [if_pos ⟨rfl, hshort⟩, strings, List.flatMap_nil, walk_short (by omega)]
    · rw [if_neg (fun h => hshort h.2), strings, List.flatMap_nil]
      by_cases hv : Digits o.value
      · rw [if_pos ⟨rfl, hv⟩, walk_overrun ho (by omega) hv]
      · rw [if_neg (fun h => hv h.2), walk_text ho (by omega) hv]
        rfl
  | cons o' behind =>
    rw [strings_cons] at hother ⊢
    have hlong : ¬ (joined (o.name :: o.value :: o'.name :: o'.value :: strings behind)).length ≤ 10 := by
      simp only [length_joined_cons, hseven]
      omega
    rw [if_neg (fun h => by cases h.1), if_neg (fun h => by cases h.1)]
    by_cases hv : Digits o.value
    · rw [walk_number ho hlong hv, walk_other fun s hs => hother s (List.mem_cons_of_mem _ hs)]
    · rw [walk_text ho hlong hv, walk_other hother]

/-- On a plain option list, the scan comes to the block size given just as `OptionSuits` says. -/
theorem walk_plain (hplain : Plain opts) {requested : Nat} (hrq : requested < 65536) (old : Int) :
    (∃ t, walk (strings opts) none = some t ∧ Agreed requested opts (judge requested (reading old t))) ↔
      OptionSuits old requested (fromBlksize opts) := by
  obtain ⟨hvalue, honce⟩ := hplain
  rcases fromBlksize_cases opts with ⟨hnil, hall⟩ | ⟨before, o, behind, hfrom, rfl, ho, hbefore⟩
  · rw [hnil, OptionSuits, walk_other (not_isBlksize_strings hall hvalue)]
    simp only [Option.some.injEq, exists_eq_left', agreed_none hall, reading]
  · rw [hfrom]
    obtain ⟨hvbefore, hvbehind⟩ := List.forall_mem_append.mp hvalue
    have hvbehind := (List.forall_mem_cons.mp hvbehind).2
    have hbehind : ∀ o' ∈ behind, ¬ IsBlksize o'.name := by
      intro o' ho' hblk
      have := (List.pairwise_append.mp honce).2.1
      exact (List.pairwise_cons.mp this).1 o' ho' ⟨ho, hblk⟩
    have hagreed := agreed_one ho hbefore hbehind requested
    rw [strings_append, walk_append (not_isBlksize_strings hbefore hvbefore), walk_option ho hbehind hvbehind]
    cases behind with
    | nil =>
      simp only [true_and, OptionSuits]
      by_cases hshort : o.value.length ≤ 1
      · simp only [if_pos hshort, Option.some.injEq, exists_eq_left', hagreed, reading,
          judge_short hshort requested]
      · by_cases hv : Digits o.value
        · simp [hshort, hv]
        · simp only [if_neg hshort, hv, if_false, Option.some.injEq, exists_eq_left', hagreed, reading,
            judge_toInt hrq, not_false_iff, true_and]
    | cons o' behind =>
      simp only [reduceCtorEq, false_and, if_false, Option.some.injEq, exists_eq_left', hagreed, reading,
        judge_toInt hrq, OptionSuits]

/-! ## When the negotiation is right -/

/-- The option list suits the scan. One that is too long is not looked at: the block size so far has to be
    right. In a plain one, the option has to stand where the scan can read it. In any other, `blksize`
    stands in the place of a value or more than once, and the text the scan takes in the end has to say the
    same as one that is paired with the name. -/
def Suits (old : Int) (requested : Nat) (opts : List Opt) : Prop :=
  if maxPacket < (joined (strings opts)).length then Agreed requested opts (judge requested old)
  else if Plain opts then OptionSuits old requested (fromBlksize opts)
  else ∃ t, walk (strings opts) none = some t ∧ Agreed requested opts (judge requested (reading old t))

/-- **The negotiation is right if and only if the option list suits the scan.** -/
theorem negotiates_iff {s : Statics} {rq : Request} {p : Packet} {opts : List Opt}
    (hop : p.opcode = opOack) (hbody : p.body.Has 2 (joined (strings opts)))
    (hlen : p.udpLen.toNat = 10 + (joined (strings opts)).length) (hidx : s.blockidx = 0) :
    Negotiates s rq p opts ↔ Suits s.blksize rq.blksize.toNat opts := by
  have hrecv : p.recvlen = (joined (strings opts)).length := by
    have := p.udpLen.toNat_lt
    rw [Packet.recvlen]
    omega
  have hahead : At p.body (2 + p.recvlen) 2 (strings opts) :=
    ⟨hbody, by rw [hrecv], zero_not_mem_strings opts⟩
  have hrq : rq.blksize.toNat < 65536 := rq.blksize.toNat_lt
  unfold Suits
  by_cases hlong : maxPacket < (joined (strings opts)).length
  · rw [if_pos hlong]
    rw [← hrecv] at hlong
    obtain ⟨hrun, hin⟩ := oackBlksize_long (b := p.body) hlong s.blksize
    exact negotiates_iff_of_run hop hidx opts hrun hin
  · rw [if_neg hlong]
    have hsmall : p.recvlen ≤ maxPacket := by omega
    obtain ⟨hsome, hnone⟩ := oackBlksize_walk hahead hsmall s.blksize
    have hscan : Negotiates s rq p opts ↔ ∃ t, walk (strings opts) none = some t ∧
        Agreed rq.blksize.toNat opts (judge rq.blksize.toNat (reading s.blksize t)) := by
      cases hwalk : walk (strings opts) none with
      | none => exact ⟨fun h => absurd h.1 (hnone hwalk), fun ⟨t, ht, _⟩ => by cases ht⟩
      | some t =>
        obtain ⟨hrun, hin⟩ := hsome t hwalk
        rw [negotiates_iff_of_run hop hidx opts hrun hin]
        simp only [Option.some.injEq, exists_eq_left']
    rw [hscan]
    split
    · exact walk_plain ‹_› hrq s.blksize
    · rfl

/-- The client once it has asked for the file `k`. -/
def asked : Statics := (newRequest ⟨2000, tftpPort, .ack 0, 0, 0, 0⟩ (tftpRequest [0x6b]) true).st

def oackPacket (opts : List Opt) : Packet where
  src := tftpPort
  dst := 2001
  udpLen := UInt16.ofNat (10 + (joined (strings opts)).length)
  body := fun i => ([0, 6] ++ joined (strings opts)).getD i 0

/-- `blksize` is 1024. -/
def blksize1024 : Opt := ⟨blksizeText, [0x31, 0x30, 0x32, 0x34], by decide, by decide⟩

/-- `tsize` is 100. -/
def tsize100 : Opt := ⟨[0x74, 0x73, 0x69, 0x7a, 0x65], [0x31, 0x30, 0x30], by decide, by decide⟩

theorem blksize_tsize_negotiates :
    Negotiates asked (tftpRequest [0x6b]) (oackPacket [blksize1024, tsize100]) [blksize1024, tsize100] := by
  refine (negotiates_iff (by decide) (by decide +kernel) (by decide +kernel) rfl).mpr ?_
  rintro ⟨hbig, -⟩
  exact absurd hbig (by decide)

/-- The acknowledgement of `blksize` alone, as a server sends it to a client that asked for nothing else:
    the string that is skipped behind the number lies behind the payload. -/
theorem blksize_alone_not_negotiates :
    (oackPacket [blksize1024]).opcode = opOack ∧
    (oackPacket [blksize1024]).body.Has 2 (joined (strings [blksize1024])) ∧
    (oackPacket [blksize1024]).udpLen.toNat = 10 + (joined (strings [blksize1024])).length ∧
    asked.blockidx = 0 ∧
    ¬ Negotiates asked (tftpRequest [0x6b]) (oackPacket [blksize1024]) [blksize1024] := by
  have hbody : (oackPacket [blksize1024]).body.Has 2 (joined (strings [blksize1024])) := by
    decide +kernel
  have hahead : At (oackPacket [blksize1024]).body (2 + (oackPacket [blksize1024]).recvlen) 2
      (strings [blksize1024]) := ⟨hbody, by decide +kernel, zero_not_mem_strings _⟩
  have hnone : walk (strings [blksize1024]) none = none := by decide +kernel
  refine ⟨by decide, hbody, by decide +kernel, rfl, fun h => ?_⟩
  exact (oackBlksize_walk hahead (by decide +kernel) asked.blksize).2 hnone h.1

end Tftp
