import Etherboot.Fsp.Client

set_option autoImplicit false

/-! # FSP downloads

The client, a server that serves one file, and the network between them. The server answers any
request that has been sent, as often as it likes. What has been sent stays on the wire and may be
delivered any number of times, at any time, or never: that is loss, duplication and reordering.

The sequence numbers of a transfer are distinct, so that a reply that passes the client's tests is one
to the request it has sent last (`Inv.answers`). `passes_file_in_order` follows: what has been passed on
is the beginning of the file, and the end is marked with its last byte. -/

namespace Fsp

open Memory Client Store

/-! ## Server and network -/

/-- A reply. The server may send something behind the data. -/
structure Reply where
  cmd : UInt8
  sum : UInt8
  key : UInt16
  seq : UInt16
  pos : Nat
  data : List UInt8
  extra : List UInt8
  deriving DecidableEq, Repr

variable (F : List UInt8) (c : Client) (r : Reply)

def Reply.payload : List UInt8 :=
  [r.cmd, r.sum] ++ le16Bytes r.key.toNat ++ le16Bytes r.seq.toNat ++ be16Bytes r.data.length ++
    be32Bytes r.pos ++ r.data ++ r.extra

/-- The answer to a request for the size: time, size and type of the file. -/
def IsStat (F data : List UInt8) : Prop :=
  ∃ time type, data = time ++ be32Bytes F.length ++ [type] ∧ time.length = 4 ∧ type ≠ 0 ∧
    F.length < 2 ^ 32

/-- `r` answers the request `m` for the file `F`, or refuses it. The checksum is any byte: with a wrong
    one the reply is dropped. -/
structure Answers (m : Request) (r : Reply) : Prop where
  seq : r.seq = m.seq
  cmd : r.cmd = m.cmd ∨ r.cmd = ccErr
  stat : r.cmd = ccStat → IsStat F r.data
  file : r.cmd = ccGetFile → r.pos = m.pos ∧ ∃ c, 2 ≤ c ∧ r.data = (F.drop m.pos).take c

/-- A received packet with the payload `bytes`; the buffer behind it holds anything. -/
structure Packet.Carries (p : Packet) (bytes : List UInt8) : Prop where
  len : p.udpLen.toNat = 8 + bytes.length
  body : p.body.Has 0 bytes

structure World where
  client : Client
  wire : List Reply

/-- The sequence number has not been used in this transfer. -/
def Client.Unused (seq : UInt16) : Prop := ∀ m ∈ c.sent, m.seq ≠ seq

inductive Step (F : List UInt8) : World → World → Prop where
  | timeout (w : World) (seq : UInt16) (txOk : Bool) (hseq : w.client.Unused seq) :
      Step F w { w with client := w.client.step (.timeout seq txOk) }
  | deliver (w : World) (r : Reply) (p : Packet) (rc : Int) (seq : UInt16) (txOk : Bool)
      (hr : r ∈ w.wire) (hp : p.Carries r.payload) (hseq : w.client.Unused seq) :
      Step F w { w with client := w.client.step (.packet p rc seq txOk) }
  | answer (w : World) (m : Request) (r : Reply) (hm : m ∈ w.client.sent) (hr : Answers F m r) :
      Step F w { w with wire := w.wire ++ [r] }

/-- A download of `F`, whatever the last one has left in the request. -/
def system : Transition World where
  init w := ∃ cfg old name seq txOk, w = ⟨Client.start cfg old name seq txOk, []⟩
  step := Step F

/-- What has been passed on. -/
def delivered (calls : List Call) : List UInt8 := (calls.map Call.data).flatten

theorem delivered_append (calls : List Call) (call : Call) :
    delivered (calls ++ [call]) = delivered calls ++ call.data := by
  simp [delivered]

/-! ## Reading a reply -/

section Read

variable {p : Packet} {r : Reply}

theorem Packet.Carries.read (h : p.Carries r.payload) :
    p.cmd = r.cmd ∧ p.seq = r.seq ∧ p.len = r.data.length ∧ p.body.Has 12 r.data := by
  have hlen := h.len
  have hudp := p.udpLen.toNat_lt
  simp only [Reply.payload, List.length_append] at hlen
  have hparts := h.body
  simp only [Reply.payload, List.append_assoc] at hparts
  obtain ⟨hcmd, hparts⟩ := has_append.mp hparts
  obtain ⟨-, hparts⟩ := has_append.mp hparts
  obtain ⟨hseq, hparts⟩ := has_append.mp hparts
  obtain ⟨hdlen, hparts⟩ := has_append.mp hparts
  obtain ⟨-, hparts⟩ := has_append.mp hparts
  obtain ⟨hdata, -⟩ := has_append.mp hparts
  refine ⟨(has_cons.mp hcmd).1, ?_, be16_of_has (by omega) hdlen, hdata⟩
  have hseq' : le16 p.body 4 = r.seq.toNat := le16_of_has r.seq.toNat_lt hseq
  rw [Packet.seq, hseq']
  exact UInt16.ofNat_toNat

theorem Packet.Carries.read_stat {F : List UInt8} (h : p.Carries r.payload) (hstat : IsStat F r.data) :
    (if p.body 20 = 0 then 0xffffffff else be32 p.body 16) = F.length := by
  obtain ⟨-, -, -, hdata⟩ := h.read
  obtain ⟨time, type, heq, htime, htype, hsize⟩ := hstat
  rw [heq, List.append_assoc] at hdata
  obtain ⟨-, hdata⟩ := has_append.mp hdata
  obtain ⟨hsz, hty⟩ := has_append.mp hdata
  rw [htime] at hsz hty
  have htype' : p.body 20 = type := (has_cons.mp hty).1
  rw [htype', if_neg htype]
  exact be32_of_has hsize hsz

theorem Packet.Carries.read_data (h : p.Carries r.payload) {i : Nat} (hi : i ≤ r.data.length) :
    p.body.slice 12 i = r.data.take i := by
  obtain ⟨-, -, -, hdata⟩ := h.read
  have hall : p.body.slice 12 r.data.length = r.data := hdata
  obtain ⟨k, hk⟩ := Nat.exists_eq_add_of_le hi
  rw [hk, slice_append] at hall
  conv_rhs => rw [← hall]
  rw [List.take_left' (by simp)]

end Read

/-! ## The client's state -/

/-- **Integrity**: the beginning of the file has been passed on, and a call that marks the end is the
    last one, with the last byte. -/
structure Sound : Prop where
  isPrefix : delivered c.calls <+: F
  eof : ∀ pre call post, c.calls = pre ++ call :: post → call.eof = true →
    post = [] ∧ call.data.length = 1 ∧ delivered pre ++ call.data = F

/-- Position and length left are in step: the size is not known yet, or they make up the file, and a
    goodbye goes out with the last byte. -/
def InStep : Prop :=
  (c.filelength = 0 ∧ c.filepos = 0) ∨
    (0 < c.filelength ∧ c.filepos + c.filelength = F.length ∧ F.length < 2 ^ 32 ∧
      (c.request.cmd = ccGetFile ∨
        c.request.cmd = ccBye ∧ c.filelength = 1 ∧ c.request.data.take 1 = F.drop c.filepos))

/-- The client at the beginning of a turn. -/
structure Ready : Prop where
  noEof : ∀ call ∈ c.calls, call.eof = false
  calls : delivered c.calls = F.take c.filepos
  data : c.request.data ≠ []
  inStep : InStep F c

/-- The client waits for the answer to its last request. -/
structure Waiting : Prop extends Ready F c where
  sent : c.request ∈ c.sent
  seq : ∀ m ∈ c.sent, m.seq = c.request.seq → m = c.request
  pos : c.request.pos = c.filepos
  stat : c.filelength = 0 → c.request.cmd = ccStat

theorem sound_of_take {F : List UInt8} {c : Client} {k : Nat} (hno : ∀ call ∈ c.calls, call.eof = false)
    (hcalls : delivered c.calls = F.take k) : Sound F c := by
  refine ⟨hcalls ▸ List.take_prefix .., fun pre call post heq heof => ?_⟩
  have hfalse := hno call (heq ▸ List.mem_append_right _ (List.mem_cons_self ..))
  cases heof.symm.trans hfalse

theorem Ready.sound {F : List UInt8} {c : Client} (h : Ready F c) : Sound F c :=
  sound_of_take h.noEof h.calls

/-- The invariant. -/
structure Inv (w : World) : Prop where
  sound : Sound F w.client
  waiting : w.client.status = .waiting → Waiting F w.client
  wire : ∀ r ∈ w.wire, ∃ m ∈ w.client.sent, Answers F m r

section Turn

variable {F : List UInt8} {c : Client}

theorem Ready.send (h : Ready F c) {seq : UInt16} (hseq : c.Unused seq) (txOk : Bool) :
    Ready F (c.send seq txOk) ∧ ((c.send seq txOk).status = .waiting → Waiting F (c.send seq txOk)) := by
  rw [Client.send]
  generalize hr : (if c.filelength = 0 then { c.request with cmd := ccStat } else c.request) = r
  have hdata : r.data = c.request.data := by
    rw [← hr]
    split <;> rfl
  have hzero (hz : c.filelength = 0) : r.cmd = ccStat := by
    rw [← hr, if_pos hz]
  have hready (sent : List Request) (status : Status) :
      Ready F { c with request := r.prepare c.filepos seq, sent := sent, status := status } := by
    refine ⟨h.noEof, h.calls, hdata ▸ h.data, h.inStep.imp id (fun hin => ?_)⟩
    obtain ⟨hpos, hsum, hlt, hcmd⟩ := hin
    have hsame : r = c.request := by
      rw [← hr, if_neg (Nat.ne_of_gt hpos)]
    exact ⟨hpos, hsum, hlt, hsame ▸ hcmd⟩
  cases txOk with
  | false => exact ⟨hready c.sent (.returned 0), fun hw => by cases hw⟩
  | true =>
    refine ⟨hready (c.sent ++ [r.prepare c.filepos seq]) c.status, fun _ => ?_⟩
    refine ⟨hready (c.sent ++ [r.prepare c.filepos seq]) c.status, ?_, fun m hm hsame => ?_, rfl, hzero⟩
    · exact List.mem_append_right _ (List.mem_singleton_self _)
    · rcases List.mem_append.mp hm with hold | hnew
      · exact absurd hsame (hseq m hold)
      · exact List.mem_singleton.mp hnew

variable {p : Packet} {r : Reply}

/-- A reply that passes the tests answers the last request. -/
theorem Waiting.answers (h : Waiting F c) (hp : p.Carries r.payload)
    (hr : ∃ m ∈ c.sent, Answers F m r) (hvalid : p.Valid c.request) : Answers F c.request r := by
  obtain ⟨m, hm, hans⟩ := hr
  obtain ⟨-, hseq, -⟩ := hp.read
  have hsame : m = c.request := h.seq m hm (hans.seq.symm.trans (hseq.symm.trans hvalid.1))
  exact hsame ▸ hans

theorem Waiting.onBye (h : Waiting F c) (hcmd : c.request.cmd = ccBye) (hone : c.filelength = 1) :
    Sound F { c with
      calls := c.calls ++ [⟨c.request.data.take 1, c.block, true⟩], status := .returned 1 } := by
  obtain ⟨hzero, -⟩ | ⟨-, hsum, -, hget | ⟨-, -, hlast⟩⟩ := h.inStep
  · cases hzero.symm.trans hone
  · cases hget.symm.trans hcmd
  · have hall : delivered c.calls ++ c.request.data.take 1 = F := by
      rw [h.calls, hlast, List.take_append_drop]
    refine ⟨?_, fun pre call post heq heof => ?_⟩
    · have hwhole : delivered (c.calls ++ [⟨c.request.data.take 1, c.block, true⟩]) = F := by
        rw [delivered_append, hall]
      exact hwhole ▸ List.prefix_refl _
    · rcases post.eq_nil_or_concat with rfl | ⟨post', y, rfl⟩
      · obtain ⟨hpre, hcall⟩ := List.append_inj' heq rfl
        obtain rfl := List.singleton_inj.mp hcall
        refine ⟨rfl, ?_, by rw [← hpre]; exact hall⟩
        rw [hlast, List.length_drop]
        omega
      · -- the call is an earlier one
        rw [List.concat_eq_append, ← List.cons_append, ← List.append_assoc] at heq
        obtain ⟨hpre, -⟩ := List.append_inj' heq rfl
        have hno := h.noEof call (hpre ▸ List.mem_append_right _ (List.mem_cons_self ..))
        cases heof.symm.trans hno

theorem Waiting.onStat (h : Waiting F c) (hcmd : c.request.cmd = ccStat)
    (hp : p.Carries r.payload) (hstat : IsStat F r.data) : Ready F (c.onStat p) := by
  have hsize := hp.read_stat hstat
  obtain ⟨-, -, -, -, -, hlt⟩ := hstat
  obtain ⟨-, hpos⟩ | ⟨-, -, -, hget | ⟨hbye, -⟩⟩ := h.inStep
  · refine ⟨h.noEof, h.calls, h.data, ?_⟩
    rw [Client.onStat, hsize]
    rcases Nat.eq_zero_or_pos F.length with hz | hnz
    · exact Or.inl ⟨hz, hpos⟩
    · exact Or.inr ⟨hnz, by rw [hpos, Nat.zero_add], hlt, Or.inl rfl⟩
  · cases hget.symm.trans hcmd
  · cases hbye.symm.trans hcmd

/-- Part of the file has come: a single byte is the last one, and more than one byte goes on with at
    least one byte left. -/
theorem Waiting.onFile (h : Waiting F c) (hcmd : c.request.cmd = ccGetFile)
    (hp : p.Carries r.payload) {n : Nat} (hn : 2 ≤ n) (hdata : r.data = (F.drop c.filepos).take n)
    (rc : Int) : Sound F (c.onFile p rc) ∧ ((c.onFile p rc).status = .waiting → Ready F (c.onFile p rc)) := by
  obtain ⟨-, -, hlen, hhas⟩ := hp.read
  obtain ⟨hzero, -⟩ | ⟨hpos, hsum, hlt, -⟩ := h.inStep
  · cases (h.stat hzero).symm.trans hcmd
  have hlength : p.len = min n c.filelength := by
    rw [hlen, hdata, List.length_take, List.length_drop]
    omega
  rw [Client.onFile]
  split
  · exact ⟨h.sound, fun _ => h.toReady⟩
  · by_cases hone : p.len = 1
    · -- the last byte alone
      rw [if_pos hone]
      have hready : Ready F { c with request := { c.request with
          key := p.key, cmd := ccBye, data := c.request.data.set 0 (p.body 12) } } := by
        have hleft : c.filelength = 1 := by omega
        refine ⟨h.noEof, h.calls, ?_, Or.inr ⟨hpos, hsum, hlt, Or.inr ⟨rfl, hleft, ?_⟩⟩⟩
        · simpa using h.data
        · have hbyte : [p.body 12] = r.data := by
            rw [← List.take_of_length_le (Nat.le_of_eq (hlen.symm.trans hone)),
              ← hp.read_data (Nat.le_of_eq (hlen.symm.trans hone).symm)]
            rfl
          obtain ⟨d, ds, hds⟩ := List.exists_cons_of_ne_nil h.data
          rw [hds, List.set_cons_zero, List.take_succ_cons, List.take_zero, hbyte, hdata,
            List.take_of_length_le (by rw [List.length_drop]; omega)]
      exact ⟨hready.sound, fun _ => hready⟩
    · rw [if_neg hone]
      generalize hi : (if p.len ≥ c.filelength then wsub c.filelength 1 else p.len) = i
      have hi' : i ≤ p.len ∧ i < c.filelength := by
        rw [← hi]
        split
        · rw [wsub_of_le hpos (by omega)]
          omega
        · omega
      have hslice : p.body.slice 12 i = (F.drop c.filepos).take i := by
        rw [hp.read_data (hlen ▸ hi'.1), hdata, List.take_take]
        congr 1
        omega
      have hcalls : delivered (c.calls ++ [⟨p.body.slice 12 i, c.block, false⟩]) =
          F.take (c.filepos + i) := by
        rw [delivered_append, h.calls, hslice, List.take_add]
      have hno : ∀ call ∈ c.calls ++ [⟨p.body.slice 12 i, c.block, false⟩], call.eof = false := by
        simp only [List.forall_mem_append, List.forall_mem_singleton]
        exact ⟨h.noEof, trivial⟩
      split
      · exact ⟨sound_of_take hno hcalls, fun hw => by cases hw⟩
      · have hready : Ready F { c with
            request := { c.request with key := p.key },
            calls := c.calls ++ [⟨p.body.slice 12 i, c.block, false⟩], block := c.block + 1,
            filepos := (c.filepos + i) % 2 ^ 32, filelength := wsub c.filelength i } := by
          have hfp : (c.filepos + i) % 2 ^ 32 = c.filepos + i := Nat.mod_eq_of_lt (by omega)
          rw [hfp, wsub_of_le (by omega) (by omega)]
          exact ⟨hno, hcalls, h.data, Or.inr ⟨by show 0 < c.filelength - i; omega,
            by show c.filepos + i + (c.filelength - i) = F.length; omega, hlt, Or.inl hcmd⟩⟩
        exact ⟨hready.sound, fun _ => hready⟩

/-- The rest of a turn keeps the client in step. -/
theorem Waiting.onReply (h : Waiting F c) (hp : p.Carries r.payload)
    (hr : ∃ m ∈ c.sent, Answers F m r) (rc : Int) :
    Sound F (c.onReply p rc) ∧ ((c.onReply p rc).status = .waiting → Ready F (c.onReply p rc)) := by
  obtain ⟨hpcmd, -⟩ := hp.read
  rw [Client.onReply, hpcmd]
  split
  · exact ⟨h.sound, fun _ => h.toReady⟩
  · next hvalid =>
    have hans := h.answers hp hr (not_not.mp hvalid)
    split
    · exact ⟨sound_of_take h.noEof h.calls, fun hw => by cases hw⟩
    · next herr =>
      have hsame : r.cmd = c.request.cmd := hans.cmd.resolve_right herr
      split
      · next hbye => exact ⟨h.onBye (hsame ▸ hbye.1) hbye.2, fun hw => by cases hw⟩
      · split
        · next hstat =>
          have hready := h.onStat (hsame ▸ hstat) hp (hans.stat hstat)
          exact ⟨hready.sound, fun _ => hready⟩
        · split
          · next hfile =>
            obtain ⟨-, n, hn, hdata⟩ := hans.file hfile
            rw [h.pos] at hdata
            exact h.onFile (hsame ▸ hfile) hp hn hdata rc
          · exact ⟨h.sound, fun _ => h.toReady⟩

theorem onReply_sent (c : Client) (p : Packet) (rc : Int) : (c.onReply p rc).sent = c.sent := by
  rw [onReply, onStat, onFile]
  split_ifs <;> rfl

theorem send_sent (c : Client) (seq : UInt16) (txOk : Bool) : c.sent ⊆ (c.send seq txOk).sent := by
  cases txOk with
  | false => exact List.Subset.refl _
  | true => exact List.subset_append_left ..

theorem next_sent (c : Client) (seq : UInt16) (txOk : Bool) : c.sent ⊆ (c.next seq txOk).sent := by
  rw [Client.next]
  split
  · exact send_sent ..
  · exact List.Subset.refl _

theorem next_inv (hsound : Sound F c) (hready : c.status = .waiting → Ready F c) {seq : UInt16}
    (hseq : c.Unused seq) (txOk : Bool) :
    Sound F (c.next seq txOk) ∧ ((c.next seq txOk).status = .waiting → Waiting F (c.next seq txOk)) := by
  rw [Client.next]
  split
  · next hw =>
    obtain ⟨hsent, hwait⟩ := (hready hw).send hseq txOk
    exact ⟨hsent.sound, hwait⟩
  · next hw => exact ⟨hsound, fun h => absurd h hw⟩

end Turn

/-! ## Reachable states -/

theorem start_inv (cfg : Config) (old : Request) (name : List UInt8) (seq : UInt16)
    (txOk : Bool) : Inv F ⟨start cfg old name seq txOk, []⟩ := by
  have hready (status : Status) : Ready F
      { cfg := cfg, filepos := 0, filelength := 0,
        request := { old with len := name.length + 1, data := name ++ 0 :: be16Bytes maxPayload },
        block := 1, status := status, calls := [], sent := [] } :=
    ⟨fun _ h => absurd h List.not_mem_nil, rfl, by simp, Or.inl ⟨rfl, rfl⟩⟩
  have hwire : ∀ r ∈ ([] : List Reply), ∃ m ∈ (start cfg old name seq txOk).sent, Answers F m r :=
    fun _ hr => by cases hr
  by_cases hlong : name.length > maxFilename
  · have hstart : (start cfg old name seq txOk) = _ := if_pos hlong
    refine ⟨?_, fun hw => ?_, hwire⟩
    · exact hstart ▸ (hready (.returned 0)).sound
    · rw [hstart] at hw
      cases hw
  · have hstart : (start cfg old name seq txOk) = _ := if_neg hlong
    obtain ⟨hsent, hwait⟩ := (hready .waiting).send (fun _ h => by cases h) txOk
    rw [← hstart] at hsent hwait
    exact ⟨hsent.sound, hwait, hwire⟩

theorem step_inv {F : List UInt8} {w w' : World} (h : Inv F w) (hs : Step F w w') : Inv F w' := by
  cases hs with
  | timeout seq txOk hseq =>
    rw [step]
    split
    · next hw =>
      obtain ⟨hsound, hwait⟩ := next_inv h.sound (fun hw => (h.waiting hw).toReady) hseq txOk
      refine ⟨hsound, hwait, fun r hr => ?_⟩
      obtain ⟨m, hm, hans⟩ := h.wire r hr
      exact ⟨m, next_sent _ _ _ hm, hans⟩
    · exact h
  | deliver r p rc seq txOk hr hp hseq =>
    rw [step]
    split
    · next hw =>
      rw [turn]
      split
      · obtain ⟨hsound, hready⟩ := (h.waiting hw).onReply hp (h.wire r hr) rc
        have hseq' : (w.client.onReply p rc).Unused seq := by
          rw [Unused, onReply_sent]
          exact hseq
        obtain ⟨hsound', hwait⟩ := next_inv hsound hready hseq' txOk
        refine ⟨hsound', hwait, fun r' hr' => ?_⟩
        obtain ⟨m, hm, hans⟩ := h.wire r' hr'
        exact ⟨m, next_sent _ _ _ (onReply_sent w.client p rc ▸ hm), hans⟩
      · exact h
    · exact h
  | answer m r hm hr =>
    refine ⟨h.sound, h.waiting, fun r' hr' => ?_⟩
    rcases List.mem_append.mp hr' with hold | hnew
    · exact h.wire r' hold
    · obtain rfl := List.mem_singleton.mp hnew
      exact ⟨m, hm, hr⟩

theorem reachable_inv {F : List UInt8} {w : World} (h : (system F).Reachable w) : Inv F w := by
  refine h.invariant (fun w hw => ?_) (fun _ _ _ => step_inv)
  obtain ⟨cfg, old, name, seq, txOk, rfl⟩ := hw
  exact start_inv F cfg old name seq txOk

/-- **Integrity of a download.** Whatever is lost, comes twice or comes late, what has been passed on is
    the beginning of the file, and only the last byte is passed on as its end, after all the others. -/
theorem passes_file_in_order {F : List UInt8} {w : World} (h : (system F).Reachable w) :
    delivered w.client.calls <+: F ∧
      ∀ pre call post, w.client.calls = pre ++ call :: post → call.eof = true →
        post = [] ∧ call.data.length = 1 ∧ delivered pre ++ call.data = F := by
  have hinv := reachable_inv h
  exact ⟨hinv.sound.isPrefix, hinv.sound.eof⟩

/-! ## A download -/

/-- A reply with its checksum. -/
def Reply.checked : Reply :=
  let sum := (Reply.payload { r with sum := 0 }).foldl (fun s b => s + b.toNat) 0
  { r with sum := UInt8.ofNat (sum + sum >>> 8) }

/-- A packet with a reply for the client 10.0.0.2. -/
def smallPacket : Packet :=
  ⟨0x0a000002, 1025, UInt16.ofNat (8 + r.payload.length), Store.splice (fun _ => 0) 0 r.payload⟩

def Client.exchange : Client :=
  c.step (.packet (smallPacket r) 1 (r.seq + 1) true)

theorem reachable_exchange {F : List UInt8} {w : World} (h : (system F).Reachable w) {r : Reply}
    (hm : w.client.request ∈ w.client.sent) (hr : Answers F w.client.request r)
    (hp : (smallPacket r).Carries r.payload) (hseq : w.client.Unused (r.seq + 1)) :
    (system F).Reachable ⟨w.client.exchange r, w.wire ++ [r]⟩ :=
  .step (.step h (.answer w _ r hm hr))
    (.deliver _ r _ 1 _ true (List.mem_append_right _ (List.mem_singleton_self r)) hp hseq)

theorem smallPacket_carries {r : Reply} (h : (UInt16.ofNat (8 + r.payload.length)).toNat =
    8 + r.payload.length) : (smallPacket r).Carries r.payload :=
  ⟨h, slice_splice_self ..⟩

/-- The answers for a file of two bytes: its size, both bytes, the second one alone, and goodbye. -/
def smallStat : Reply := .checked ⟨ccStat, 0, 0, 1, 0, [0, 0, 0, 0, 0, 0, 0, 2, 1], []⟩
def smallBoth : Reply := .checked ⟨ccGetFile, 0, 0, 2, 0, [7, 9], []⟩
def smallLast : Reply := .checked ⟨ccGetFile, 0, 0, 3, 1, [9], []⟩
def smallBye : Reply := .checked ⟨ccBye, 0, 0, 4, 1, [], []⟩

def smallClient : Client :=
  Client.start ⟨0x0a000002, 1025⟩ ⟨0, 0, 0, 0, 0, 0, []⟩ [47, 120] 1 true

/-- The first byte has been passed on. -/
def smallHalf : Client := (smallClient.exchange smallStat).exchange smallBoth

theorem smallHalf_reachable : (system [7, 9]).Reachable ⟨smallHalf, [smallStat, smallBoth]⟩ := by
  have h0 : (system [7, 9]).Reachable ⟨smallClient, []⟩ := .init ⟨_, _, _, _, _, rfl⟩
  have h1 := reachable_exchange h0 (r := smallStat) (by decide +kernel)
    ⟨rfl, Or.inl rfl, fun _ => ⟨[0, 0, 0, 0], 1, rfl, rfl, by decide, by decide⟩,
      fun h => absurd h (by decide)⟩ (smallPacket_carries rfl) (by unfold Unused; decide +kernel)
  exact reachable_exchange h1 (r := smallBoth) (by decide +kernel)
    ⟨by decide +kernel, Or.inl (by decide +kernel), fun h => absurd h (by decide),
      fun _ => ⟨by decide +kernel, 2, by decide, by decide +kernel⟩⟩ (smallPacket_carries rfl)
    (by unfold Unused; decide +kernel)

theorem smallLast_answers : Answers [7, 9] smallHalf.request smallLast :=
  ⟨by decide +kernel, Or.inl (by decide +kernel), fun h => absurd h (by decide),
    fun _ => ⟨by decide +kernel, 2, by decide, by decide +kernel⟩⟩

theorem small_download :
    ∃ w, (system [7, 9]).Reachable w ∧ w.client.calls = [⟨[7], 1, false⟩, ⟨[9], 2, true⟩] ∧
      delivered w.client.calls <+: [7, 9] := by
  have h3 := reachable_exchange smallHalf_reachable (by decide +kernel) smallLast_answers
    (smallPacket_carries rfl) (by unfold Unused; decide +kernel)
  have h4 := reachable_exchange h3 (r := smallBye) (by decide +kernel)
    ⟨by decide +kernel, Or.inl (by decide +kernel), fun h => absurd h (by decide),
      fun h => absurd h (by decide)⟩ (smallPacket_carries rfl) (by unfold Unused; decide +kernel)
  exact ⟨_, h4, by decide +kernel, (passes_file_in_order h4).1⟩

/-- **Requests and replies are in step.** While the client waits, whatever was lost, came twice or came late:
    its request has been sent and asks for the file from where what has been passed on ends, and every reply
    under way with its sequence number answers it. -/
theorem requests_in_step {F : List UInt8} {w : World} (h : (system F).Reachable w)
    (hw : w.client.status = .waiting) :
    w.client.request ∈ w.client.sent ∧ w.client.request.pos = (delivered w.client.calls).length ∧
      ∀ r ∈ w.wire, r.seq = w.client.request.seq → Answers F w.client.request r := by
  have hinv := reachable_inv h
  have hwait := hinv.waiting hw
  refine ⟨hwait.sent, ?_, fun r hr hseq => ?_⟩
  · have hle : w.client.filepos ≤ F.length := by
      rcases hwait.inStep with ⟨-, hpos⟩ | ⟨-, hsum, -⟩ <;> omega
    rw [hwait.pos, hwait.calls, List.length_take, Nat.min_eq_left hle]
  · obtain ⟨m, hm, hans⟩ := hinv.wire r hr
    exact hwait.seq m hm (hans.seq.symm.trans hseq) ▸ hans

theorem smallClient_in_step :
    (system [7, 9]).Reachable ⟨smallHalf, [smallStat, smallBoth, smallLast]⟩ ∧
      smallHalf.calls = [⟨[7], 1, false⟩] ∧ smallHalf.request.pos = 1 ∧
      ∀ r ∈ [smallStat, smallBoth, smallLast], r.seq = 3 → Answers [7, 9] smallHalf.request r := by
  have h : (system [7, 9]).Reachable ⟨smallHalf, [smallStat, smallBoth, smallLast]⟩ :=
    .step smallHalf_reachable (.answer _ _ smallLast (by decide +kernel) smallLast_answers)
  have hcalls : smallHalf.calls = [⟨[7], 1, false⟩] := by decide +kernel
  have hseq : smallHalf.request.seq = 3 := by decide +kernel
  obtain ⟨-, hpos, hanswers⟩ := requests_in_step h (by decide +kernel)
  exact ⟨h, hcalls, hpos.trans (by rw [hcalls]; rfl), fun r hr h3 => hanswers r hr (h3.trans hseq.symm)⟩

end Fsp
