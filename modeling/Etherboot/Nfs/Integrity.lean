import Etherboot.Nfs.Client
import Mathlib.Data.List.Induction
import Mathlib.Data.List.TakeDrop

set_option autoImplicit false

/-! # NFS downloads

The client, a server that serves the file `F`, and the network between them. The server answers any
call that has been sent, as often as it likes, and the answers may be delivered any number of times, at
any time, or never: that is loss, duplication and reordering. What it answers to anything but a READ is
left open, links among it; a READ with a handle of the file brings what is there, in a reply with the null
verifier, and one with another handle fails.

Ids are counted, and so few calls are made that they do not come around. A reply with the right id is
therefore one to the call that the client waits for (`Waiting.answers`), and `passes_file_in_blocks`
follows. -/

namespace Nfs

open Memory Client

/-! ## Server and network -/

/-- A READ of `count` bytes at `offset` that has succeeded. The reply has the null verifier: behind a longer
    one nothing is where `nfs` looks for it (`verifier_misread`). -/
structure IsReadReply (F : List UInt8) (offset count : Nat) (p : Packet) : Prop where
  succeeded : p.Succeeded
  size : p.data 6 = F.length
  length : p.data 18 = ((F.drop offset).take count).length
  bytes : p.body.Has (Packet.dataOffset 19) ((F.drop offset).take count)

/-- `p` answers the call `m`. The handles of the file are those in `file`. -/
structure Answers (F : List UInt8) (file : List UInt8 → Prop) (m : Call) (p : Packet) : Prop where
  id : p.id = m.id
  read : m.prog = progNfs → m.proc = nfsRead → ∀ fh offset count, offset < 2 ^ 32 → count < 2 ^ 32 →
    m.args = fh ++ words [offset, count, 0] →
      (file fh → IsReadReply F offset count p) ∧ (¬ file fh → p.result ≠ 0)

structure World where
  client : Client
  wire : List Packet

inductive Step (F : List UInt8) (file : List UInt8 → Prop) : World → World → Prop where
  | timeout (w : World) : Step F file w { w with client := w.client.step .timeout }
  | deliver (w : World) (p : Packet) (rc : Int) (hp : p ∈ w.wire) :
      Step F file w { w with client := w.client.step (.packet p rc) }
  | answer (w : World) (s : Sent) (p : Packet) (hs : s ∈ w.client.sent) (hp : Answers F file s.call p) :
      Step F file w { w with wire := w.wire ++ [p] }

/-- A download, whatever earlier ones have left. The counter of the ids is a word. -/
def system (F : List UInt8) (file : List UInt8 → Prop) : Transition World where
  init w := ∃ cfg statics name stack, statics.rpcId < 2 ^ 32 ∧
    w = ⟨Client.start cfg statics name stack, []⟩
  step := Step F file

/-! ## Blocks of the file -/

/-- What has been passed on. -/
def delivered (blocks : List Block) : List UInt8 := (blocks.map Block.data).flatten

theorem delivered_append (blocks : List Block) (b : Block) :
    delivered (blocks ++ [b]) = delivered blocks ++ b.data := by
  simp [delivered]

/-- `b` is the block of `F` with the index `i`; behind the end there is none, but an empty file has an
    empty one. -/
structure IsBlock (F : List UInt8) (i : Nat) (b : Block) : Prop where
  data : b.data = (F.drop (1024 * i)).take 1024
  block : b.block = i + 1
  len : b.len = b.data.length
  eof : b.eof = true ↔ F.length ≤ 1024 * (i + 1)
  inside : i = 0 ∨ 1024 * i < F.length

/-- The blocks of the file have been passed on in their order, as many as there are. -/
def Sound (F : List UInt8) (blocks : List Block) : Prop := ∀ i b, blocks[i]? = some b → IsBlock F i b

section Sound

variable {F : List UInt8} {blocks : List Block} {b : Block}

theorem sound_nil (F : List UInt8) : Sound F [] := fun i b h => by simp at h

theorem sound_append : Sound F (blocks ++ [b]) ↔ Sound F blocks ∧ IsBlock F blocks.length b := by
  constructor
  · intro h
    refine ⟨fun i a hi => h i a ?_, h _ b (by simp)⟩
    obtain ⟨hlt, -⟩ := List.getElem?_eq_some_iff.mp hi
    rw [List.getElem?_append_left hlt, hi]
  · rintro ⟨h, hb⟩ i a hi
    rcases Nat.lt_or_ge i blocks.length with hlt | hge
    · rw [List.getElem?_append_left hlt] at hi
      exact h i a hi
    · obtain ⟨hlt, -⟩ := List.getElem?_eq_some_iff.mp hi
      rw [List.length_append, List.length_singleton] at hlt
      obtain rfl : i = blocks.length := by omega
      simp only [List.getElem?_concat_length, Option.some.injEq] at hi
      exact hi ▸ hb

theorem Sound.delivered (h : Sound F blocks) : delivered blocks = F.take (1024 * blocks.length) := by
  induction blocks using List.reverseRecOn with
  | nil => rfl
  | append_singleton blocks b ih =>
    obtain ⟨hinit, hb⟩ := sound_append.mp h
    rw [delivered_append, ih hinit, hb.data, List.length_append, List.length_singleton, Nat.mul_add,
      Nat.mul_one, List.take_add]

theorem Sound.length_le (h : Sound F blocks) : blocks.length ≤ F.length / 1024 + 1 := by
  rcases List.eq_nil_or_concat blocks with rfl | ⟨init, b, rfl⟩
  · exact Nat.zero_le _
  · rw [List.concat_eq_append] at h ⊢
    rw [List.length_append, List.length_singleton]
    rcases (sound_append.mp h).2.inside with hz | hlt <;> omega

theorem Sound.split (h : Sound F blocks) {pre post : List Block} (heq : blocks = pre ++ b :: post) :
    IsBlock F pre.length b ∧ (b.eof = true ↔ Nfs.delivered pre ++ b.data = F) ∧
      (b.eof = true → post = []) := by
  have hpre : Sound F pre := fun i a hi => by
    obtain ⟨hlt, -⟩ := List.getElem?_eq_some_iff.mp hi
    exact h i a (by rw [heq, List.getElem?_append_left hlt, hi])
  have hb : IsBlock F pre.length b := h _ b (by simp [heq])
  refine ⟨hb, ?_, fun heof => ?_⟩
  · have hdata : Nfs.delivered pre ++ b.data = F.take (1024 * (pre.length + 1)) := by
      rw [hpre.delivered, hb.data, Nat.mul_add, Nat.mul_one, List.take_add]
    rw [hdata, hb.eof, List.take_eq_self_iff]
  · -- a further block would lie behind the end
    cases post with
    | nil => rfl
    | cons a post =>
      have ha : IsBlock F (pre.length + 1) a := h _ a (by simp [heq])
      have hend := hb.eof.mp heof
      rcases ha.inside with hz | hlt <;> omega

end Sound

/-! ## The client's state -/

/-- Something has gone wrong, or nothing has been passed on. -/
def Failed (c : Client) : Prop := c.exhausted = true ∨ (∃ b ∈ c.blocks, b.rc ≤ 0) ∨ c.blocks = []

/-- The client reads the file on from where the blocks end. -/
structure Reading (F : List UInt8) (file : List UInt8 → Prop) (c : Client) : Prop where
  block : c.block = c.blocks.length + 1
  offs : c.offs = 1024 * c.blocks.length
  first : c.blocks = [] → c.size = -1 ∧ c.len = 1024
  later : c.blocks ≠ [] →
    file c.filefh ∧ c.offs < F.length ∧ c.size = F.length ∧ c.len = min 1024 (F.length - c.offs)

/-- What holds when a call is made: only in the midst of the file, or when it is given up, are there
    blocks. -/
def Ready (F : List UInt8) (file : List UInt8 → Prop) (c : Client) : Rpc → Prop
  | .umountall _ => Failed c
  | .read => Reading F file c
  | _ => c.blocks = []

/-- Giving up may come in between. -/
theorem Ready.congr {F : List UInt8} {file : List UInt8 → Prop} {c c' : Client} {rpc : Rpc}
    (h : Ready F file c rpc) (hblocks : c'.blocks = c.blocks) (hblock : c'.block = c.block)
    (hoffs : c'.offs = c.offs) (hsize : c'.size = c.size) (hlen : c'.len = c.len)
    (hfh : c'.filefh = c.filefh) (hex : c.exhausted = true → c'.exhausted = true) :
    Ready F file c' rpc := by
  cases rpc with
  | umountall rc =>
    rw [Ready, Failed, hblocks]
    exact h.imp hex id
  | read =>
    refine ⟨?_, ?_, ?_, ?_⟩
    · rw [hblock, hblocks]
      exact h.block
    · rw [hoffs, hblocks]
      exact h.offs
    · rw [hblocks, hsize, hlen]
      exact h.first
    · rw [hblocks, hfh, hoffs, hsize, hlen]
      exact h.later
  | _ => exact hblocks.trans h

/-- How many calls a round can have taken up to this one, blocks apart. -/
def Rpc.place : Rpc → Nat
  | .mountPort => 1
  | .nfsPort => 2
  | .mount => 3
  | .lookup => 4
  | .read => 5
  | .readlink => 6
  | .umountall _ => 7

/-- `n` calls have been made, with the ids from `base` on, and those with the last id are the present
    one. -/
structure Calls (F : List UInt8) (file : List UInt8 → Prop) (wire : List Packet) (base n : Nat)
    (c : Client) : Prop where
  sound : Sound F c.blocks
  depth : c.recursion ≤ maxLinkDepth + 1
  rpcId : c.statics.rpcId = (base + n) % 2 ^ 32
  sent : ∀ s ∈ c.sent, ∃ j < n, s.call.id = (base + j) % 2 ^ 32 ∧ (j + 1 = n → s.call = c.call)
  wire : ∀ p ∈ wire, ∃ s ∈ c.sent, Answers F file s.call p

/-- A call is under way or has just been answered. -/
structure Turn (F : List UInt8) (file : List UInt8 → Prop) (wire : List Packet) (base n : Nat)
    (c : Client) : Prop extends Calls F file wire base n c where
  status : c.status = .waiting
  count : n + 6 ≤ 6 * c.recursion + c.rpc.place + c.blocks.length
  ready : Ready F file c c.rpc

/-- The client waits for the answer to its last call. -/
structure Waiting (F : List UInt8) (file : List UInt8 → Prop) (wire : List Packet) (base n : Nat)
    (c : Client) : Prop extends Turn F file wire base n c where
  pos : 0 < n
  id : c.call.id = (base + (n - 1)) % 2 ^ 32
  read : c.rpc = .read → c.call.prog = progNfs ∧ c.call.proc = nfsRead ∧
    c.call.args = c.filefh ++ words [(c.offs % 2 ^ 32).toNat, (c.len % 2 ^ 32).toNat, 0]

/-- The invariant. -/
def Inv (F : List UInt8) (file : List UInt8 → Prop) (wire : List Packet) (c : Client) : Prop :=
  ∃ base n, Calls F file wire base n c ∧ (c.status = .waiting → Waiting F file wire base n c) ∧
    ∀ rc, c.status = .returned rc → Failed c ∨ (rc = 1 ∧ F.length ≤ 1024 * c.blocks.length)

section Turn

variable {F : List UInt8} {file : List UInt8 → Prop} {wire : List Packet} {base n : Nat} {c : Client}

theorem Waiting.inv (h : Waiting F file wire base n c) : Inv F file wire c :=
  ⟨base, n, h.toCalls, fun _ => h, fun rc hrc => by rw [h.status] at hrc; cases hrc⟩

/-! ## Calls -/

theorem message_id (c : Client) (rpc : Rpc) : (c.message rpc).id = c.statics.rpcId := by
  cases rpc <;> rfl

theorem begin_inv (h : Calls F file wire base n c) (hw : c.status = .waiting) {rpc : Rpc}
    (hn : n + 7 ≤ 6 * c.recursion + rpc.place + c.blocks.length) (hr : Ready F file c rpc) :
    Inv F file wire (c.begin rpc) := by
  suffices hwait : Waiting F file wire base (n + 1) (c.begin rpc) from hwait.inv
  refine ⟨⟨⟨h.sound, h.depth, ?_, ?_, ?_⟩, hw, ?_, ?_⟩, ?_, ?_, ?_⟩
  · show (c.statics.rpcId + 1) % 2 ^ 32 = (base + (n + 1)) % 2 ^ 32
    rw [h.rpcId]
    omega
  · show ∀ s ∈ c.sent ++ [_], _
    rw [List.forall_mem_append, List.forall_mem_singleton]
    constructor
    · intro s hs
      obtain ⟨j, hj, hid, -⟩ := h.sent s hs
      exact ⟨j, by omega, hid, fun heq => by omega⟩
    · exact ⟨n, by omega, (message_id c rpc).trans h.rpcId, fun _ => rfl⟩
  · intro p hp
    obtain ⟨s, hs, hans⟩ := h.wire p hp
    exact ⟨s, List.mem_append_left _ hs, hans⟩
  · show n + 1 + 6 ≤ 6 * c.recursion + rpc.place + c.blocks.length
    omega
  · exact hr.congr rfl rfl rfl rfl rfl rfl (fun hex => hex)
  · exact Nat.succ_pos n
  · exact (message_id c rpc).trans h.rpcId
  · intro hrpc
    have hread : rpc = .read := hrpc
    subst hread
    exact ⟨rfl, rfl, rfl⟩

theorem return_inv (h : Calls F file wire base n c) {rc : Int}
    (hr : Failed c ∨ (rc = 1 ∧ F.length ≤ 1024 * c.blocks.length)) : Inv F file wire (c.return_ rc) := by
  refine ⟨base, n, ⟨h.sound, h.depth, h.rpcId, h.sent, h.wire⟩, fun hw => ?_, fun rc' hrc => ?_⟩
  · cases hw
  · obtain rfl : rc = rc' := Status.returned.inj hrc
    exact hr

section

variable (h : Calls F file wire base n c) (hw : c.status = .waiting)

include h hw

theorem umountall_inv (hn : n ≤ 6 * c.recursion + c.blocks.length) (hf : Failed c) (rc : Int) :
    Inv F file wire (c.umountall rc) := by
  rw [umountall]
  split
  · exact return_inv h (.inl hf)
  · exact begin_inv h hw (by simp only [Rpc.place]; omega) hf

/-! ## The way to the file -/

theorem havePorts_inv (hb : c.blocks = [])
    (hn : n + 4 ≤ 6 * c.recursion) : Inv F file wire c.havePorts := by
  rw [havePorts]
  split
  · exact return_inv h (.inl (.inr (.inr hb)))
  · exact begin_inv h hw (by simp only [Rpc.place]; omega) hb

theorem needNfsPort_inv (hb : c.blocks = [])
    (hn : n + 5 ≤ 6 * c.recursion) : Inv F file wire c.needNfsPort := by
  rw [needNfsPort]
  split
  · exact begin_inv h hw (by simp only [Rpc.place]; omega) hb
  · exact havePorts_inv h hw hb (by omega)

theorem nfssymlink_inv (hb : c.blocks = [])
    (hn : n ≤ 6 * c.recursion) : Inv F file wire c.nfssymlink := by
  have hf : Failed c := .inr (.inr hb)
  rw [nfssymlink]
  split
  · exact return_inv h (.inl hf)
  · next hdepth =>
    have hdepth' : c.recursion + 1 ≤ maxLinkDepth + 1 := by omega
    split
    · exact return_inv (c := { c with recursion := c.recursion + 1 })
        ⟨h.sound, hdepth', h.rpcId, h.sent, h.wire⟩ (.inl hf)
    · next i _ =>
      rw [needMountPort]
      have hnext : Calls F file wire base n { c with
          recursion := c.recursion + 1, dirname := c.dirname.set i 0, fname := i + 1 } :=
        ⟨h.sound, hdepth', h.rpcId, h.sent, h.wire⟩
      split
      · refine begin_inv hnext hw ?_ hb
        show n + 7 ≤ 6 * (c.recursion + 1) + 1 + c.blocks.length
        omega
      · refine needNfsPort_inv hnext hw hb ?_
        show n + 5 ≤ 6 * (c.recursion + 1)
        omega

end

/-! ## Blocks -/

/-- The part of the file that is asked for: the next 1024 bytes, or what is left. -/
theorem Reading.window (h : Reading F file c) :
    (c.blocks.length = 0 ∨ 1024 * c.blocks.length < F.length) ∧
      ∃ m : Nat, c.len = m ∧ m ≤ 1024 ∧
        min m (F.length - 1024 * c.blocks.length) = min 1024 (F.length - 1024 * c.blocks.length) := by
  by_cases hnil : c.blocks = []
  · exact ⟨.inl (by rw [hnil]; rfl), 1024, (h.first hnil).2, by omega, rfl⟩
  · obtain ⟨-, hlt, -, hlen⟩ := h.later hnil
    have hoffs := h.offs
    exact ⟨.inr (by omega), min 1024 (F.length - 1024 * c.blocks.length), by omega, by omega, by omega⟩

section Reply

variable {p : Packet} (hF : F.length < 2 ^ 31) (hr : Reading F file c)
  (hp : IsReadReply F (c.offs % 2 ^ 32).toNat (c.len % 2 ^ 32).toNat p)

include hF hr hp

theorem rlen_of_reply : c.rlen p = (min 1024 (F.length - 1024 * c.blocks.length) : Nat) ∧
    p.body.slice (Packet.dataOffset 19) (min 1024 (F.length - 1024 * c.blocks.length)) =
      (F.drop (1024 * c.blocks.length)).take 1024 := by
  obtain ⟨hinside, m, hm, hmax, hmin⟩ := hr.window
  have hoffs := hr.offs
  have hcount := hp.length
  have hbytes := hp.bytes
  have hoffset : (c.offs % 2 ^ 32).toNat = 1024 * c.blocks.length := by omega
  have hlen : (c.len % 2 ^ 32).toNat = m := by omega
  rw [hoffset, hlen] at hcount hbytes
  have htake : (F.drop (1024 * c.blocks.length)).take m = (F.drop (1024 * c.blocks.length)).take 1024 := by
    rw [List.take_eq_take_iff, List.length_drop]
    exact hmin
  rw [htake] at hcount hbytes
  have hlength : ((F.drop (1024 * c.blocks.length)).take 1024).length =
      min 1024 (F.length - 1024 * c.blocks.length) := by
    rw [List.length_take, List.length_drop]
  constructor
  · rw [rlen, hcount, hlength, int32_of_lt (by omega) (by omega), hm]
    omega
  · rw [← hlength]
    exact hbytes

theorem sizeOf_reply : c.sizeOf p = F.length := by
  rw [Client.sizeOf]
  by_cases hnil : c.blocks = []
  · rw [if_pos (hr.first hnil).1, hp.size, int32_of_lt (by omega) (by omega)]
  · obtain ⟨-, -, hsize, -⟩ := hr.later hnil
    rw [if_neg (by omega), hsize]

theorem isBlock_pass (rc : Int) : IsBlock F c.blocks.length (c.pass p rc) := by
  obtain ⟨hrlen, hslice⟩ := rlen_of_reply hF hr hp
  obtain ⟨hinside, -⟩ := hr.window
  have hoffs := hr.offs
  have hdata : (c.pass p rc).data = (F.drop (1024 * c.blocks.length)).take 1024 := by
    rw [Client.pass, hrlen]
    exact hslice
  refine ⟨hdata, hr.block, ?_, ?_, hinside⟩
  · rw [hdata, List.length_take, List.length_drop]
    exact hrlen
  · simp only [Client.pass, decide_eq_true_eq, hrlen, sizeOf_reply hF hr hp, hoffs]
    rw [int32_of_lt (by omega) (by omega)]
    omega

theorem onBlock_inv (h : Turn F file wire base n c) (hrpc : c.rpc = .read) (hfile : file c.filefh)
    (rc : Int) : Inv F file wire (c.onBlock p rc) := by
  have hb := isBlock_pass hF hr hp rc
  have hcount := h.count
  rw [hrpc, Rpc.place] at hcount
  have hnext (block : Nat) (size offs len : Int) : Calls F file wire base n { c with
      block := block, size := size, offs := offs, len := len, blocks := c.blocks ++ [c.pass p rc] } :=
    ⟨sound_append.mpr ⟨h.sound, hb⟩, h.depth, h.rpcId, h.sent, h.wire⟩
  have hlength : (c.blocks ++ [c.pass p rc]).length = c.blocks.length + 1 := by simp
  rw [onBlock]
  split
  · next hrc =>
    refine umountall_inv (hnext _ _ _ _) h.status ?_ (.inr (.inl ⟨c.pass p rc, by simp, hrc⟩)) rc
    show n ≤ 6 * c.recursion + (c.blocks ++ [c.pass p rc]).length
    omega
  · obtain ⟨hrlen, -⟩ := rlen_of_reply hF hr hp
    obtain ⟨hinside, m, hm, hmax, hmin⟩ := hr.window
    have hoffs := hr.offs
    obtain ⟨next, hnew, hmark⟩ : ∃ next, int32 (c.offs + c.rlen p) = next ∧
        next = min (F.length : Int) (1024 * (c.blocks.length + 1)) :=
      ⟨_, rfl, (int32_of_lt (by omega) (by omega)).trans (by omega)⟩
    have hleft : int32 (F.length - next) = F.length - next := int32_of_lt (by omega) (by omega)
    simp only [advance, hnew, sizeOf_reply hF hr hp, readSize, hleft]
    by_cases hend : F.length ≤ 1024 * (c.blocks.length + 1)
    · -- the block was the last one
      rw [if_neg (by rw [if_pos (by omega)]; omega)]
      refine return_inv (hnext _ _ _ _) (.inr ⟨rfl, ?_⟩)
      show F.length ≤ 1024 * (c.blocks ++ [c.pass p rc]).length
      omega
    · have hlen : (if (F.length : Int) - next < 1024 then (F.length : Int) - next else c.len) =
          min 1024 (F.length - next) := by
        split <;> omega
      rw [hlen, if_pos (by omega)]
      refine begin_inv (hnext _ _ _ _) h.status ?_ ⟨?_, ?_, ?_, ?_⟩
      · show n + 7 ≤ 6 * c.recursion + 5 + (c.blocks ++ [c.pass p rc]).length
        omega
      · rw [hlength, hr.block]
      · show next = 1024 * (c.blocks ++ [c.pass p rc]).length
        omega
      · exact fun hnil => absurd hnil (by simp)
      · refine fun _ => ⟨hfile, ?_, rfl, rfl⟩
        show next < F.length
        omega

end Reply

/-! ## Results -/

theorem Turn.failed (h : Turn F file wire base n c) (hr : c.rpc ≠ .read) : Failed c := by
  have hready := h.ready
  cases hrpc : c.rpc with
  | read => exact absurd hrpc hr
  | umountall rc => rwa [hrpc] at hready
  | _ =>
    rw [hrpc] at hready
    exact .inr (.inr hready)

theorem onError_inv (h : Turn F file wire base n c) (hf : Failed c) (err : Int) :
    Inv F file wire (c.onError err) := by
  have hready := h.ready
  have hcount := h.count
  have hcalls (mountPort nfsPort : Int) : Calls F file wire base n
      { c with statics := { c.statics with mountPort := mountPort, nfsPort := nfsPort } } :=
    ⟨h.sound, h.depth, h.rpcId, h.sent, h.wire⟩
  rw [onError]
  split
  all_goals
    rename_i hrpc
    rw [hrpc] at hready hcount
    simp only [Rpc.place] at hcount
  · refine needNfsPort_inv (hcalls err c.statics.nfsPort) h.status hready ?_
    rw [show c.blocks = [] from hready] at hcount
    exact Nat.le_of_succ_le_succ hcount
  · refine havePorts_inv (hcalls c.statics.mountPort err) h.status hready ?_
    rw [show c.blocks = [] from hready] at hcount
    exact Nat.le_of_succ_le_succ (Nat.le_of_succ_le_succ hcount)
  · exact umountall_inv h.toCalls h.status (by omega) hf 0
  · exact umountall_inv h.toCalls h.status (by omega) hf 0
  · exact umountall_inv h.toCalls h.status (by omega) hf 0
  · split
    · next herr =>
      have hnil : c.blocks = [] := by
        have hoffs := hready.offs
        exact List.eq_nil_of_length_eq_zero (by omega)
      exact begin_inv h.toCalls h.status (by simp only [Rpc.place]; omega) hnil
    · exact umountall_inv h.toCalls h.status (by omega) hf 0
  · exact return_inv h.toCalls (.inl hf)

/-- The invariant keeps when only what it does not speak of changes. -/
theorem Turn.congr (h : Turn F file wire base n c) {c' : Client} (hblocks : c'.blocks = c.blocks)
    (hrecursion : c'.recursion = c.recursion) (hid : c'.statics.rpcId = c.statics.rpcId)
    (hsent : c'.sent = c.sent) (hcall : c'.call = c.call) (hstatus : c'.status = c.status)
    (hrpc : c'.rpc = c.rpc) (hready : Ready F file c' c.rpc) : Turn F file wire base n c' := by
  refine ⟨⟨hblocks ▸ h.sound, hrecursion ▸ h.depth, hid.trans h.rpcId, ?_, ?_⟩, hstatus.trans h.status, ?_, ?_⟩
  · rw [hsent, hcall]
    exact h.sent
  · rw [hsent]
    exact h.wire
  · rw [hrecursion, hrpc, hblocks]
    exact h.count
  · rw [hrpc]
    exact hready

/-- A reply with the right id answers the call that the client waits for. -/
theorem Waiting.answers (h : Waiting F file wire base n c) (hF : F.length < 2 ^ 31) {p : Packet}
    (hp : p ∈ wire) (hid : p.id = c.call.id) : Answers F file c.call p := by
  obtain ⟨s, hs, hans⟩ := h.wire p hp
  obtain ⟨j, hj, hsid, hcall⟩ := h.sent s hs
  have hdepth := h.depth
  have hcount := h.count
  have hblocks := h.sound.length_le
  have hplace : c.rpc.place ≤ 7 := by cases c.rpc <;> simp [Rpc.place]
  have hbound : n < 2 ^ 32 := by
    rw [maxLinkDepth] at hdepth
    omega
  have hsame : (base + j) % 2 ^ 32 = (base + (n - 1)) % 2 ^ 32 := by
    rw [← hsid, ← h.id, ← hid, hans.id]
  exact hcall (by omega) ▸ hans

section

variable (h : Turn F file wire base n c)

include h

theorem Turn.opening {rpc : Rpc} (hrpc : c.rpc = rpc)
    (hr : Ready F file c rpc = (c.blocks = [])) :
    c.blocks = [] ∧ n + 6 ≤ 6 * c.recursion + rpc.place := by
  have hnil : c.blocks = [] := hr ▸ hrpc ▸ h.ready
  have hcount := h.count
  rw [hrpc, hnil] at hcount
  exact ⟨hnil, hcount⟩

/-- Taking the data of a reply changes nothing of this, before the file is read. -/
theorem Turn.mounted (hrpc : c.rpc = .mount) (p : Packet) :
    Turn F file wire base n (c.mounted p) ∧ (c.mounted p).rpc = .mount := by
  rw [Client.mounted]
  split
  · refine ⟨h.congr rfl rfl rfl rfl rfl rfl rfl ?_, hrpc⟩
    rw [hrpc]
    exact (h.opening hrpc rfl).1
  · exact ⟨h, hrpc⟩

theorem Turn.lookedUp (hrpc : c.rpc = .lookup) (p : Packet) :
    Turn F file wire base n (c.lookedUp p) ∧ (c.lookedUp p).rpc = .lookup := by
  rw [Client.lookedUp]
  split
  · refine ⟨h.congr rfl rfl rfl rfl rfl rfl rfl ?_, hrpc⟩
    rw [hrpc]
    exact (h.opening hrpc rfl).1
  · exact ⟨h, hrpc⟩

theorem Turn.linkRead (hrpc : c.rpc = .readlink) (p : Packet) :
    Turn F file wire base n (c.linkRead p) ∧ (c.linkRead p).rpc = .readlink := by
  rw [Client.linkRead]
  split
  · refine ⟨h.congr rfl rfl rfl rfl rfl rfl rfl ?_, hrpc⟩
    rw [hrpc]
    exact (h.opening hrpc rfl).1
  · exact ⟨h, hrpc⟩

end

theorem onReply_inv (hF : F.length < 2 ^ 31) (h : Waiting F file wire base n c) {p : Packet}
    (hp : Answers F file c.call p) (rc : Int) : Inv F file wire (c.onReply p rc) := by
  rw [onReply]
  split
  · next hrpc => exact onError_inv h.toTurn (h.failed (by rw [hrpc]; simp)) _
  · next hrpc => exact onError_inv h.toTurn (h.failed (by rw [hrpc]; simp)) _
  · next hrpc =>
    obtain ⟨hturn, hrpc'⟩ := h.toTurn.mounted hrpc p
    obtain ⟨hnil, hcount⟩ := hturn.opening hrpc' rfl
    split
    · exact onError_inv hturn (.inr (.inr hnil)) _
    · exact begin_inv hturn.toCalls hturn.status (by simp only [Rpc.place] at hcount ⊢; omega) hnil
  · next hrpc =>
    obtain ⟨hturn, hrpc'⟩ := h.toTurn.lookedUp hrpc p
    obtain ⟨hnil, hcount⟩ := hturn.opening hrpc' rfl
    split
    · exact onError_inv hturn (.inr (.inr hnil)) _
    · generalize c.lookedUp p = c' at hturn hnil hcount
      have hcalls : Calls F file wire base n { c' with offs := 0, block := 1, size := -1, len := readSize } :=
        ⟨hturn.sound, hturn.depth, hturn.rpcId, hturn.sent, hturn.wire⟩
      refine begin_inv hcalls hturn.status ?_ ⟨?_, ?_, fun _ => ⟨rfl, rfl⟩, fun h => absurd hnil h⟩
      · simp only [Rpc.place] at hcount ⊢
        omega
      · rw [hnil]
        rfl
      · rw [hnil]
        rfl
  · next hrpc =>
    obtain ⟨hprog, hproc, hargs⟩ := h.read hrpc
    have hread := hp.read hprog hproc _ _ _ (by omega) (by omega) hargs
    have hready : Reading F file c := by
      have hready := h.ready
      rwa [hrpc] at hready
    by_cases hfile : file c.filefh
    · have hreply := hread.1 hfile
      have hok : p.result = 0 := if_pos hreply.succeeded
      rw [if_neg (not_not.mpr hok)]
      exact onBlock_inv hF hready hreply h.toTurn hrpc hfile rc
    · -- nothing has been read with another handle
      rw [if_pos (hread.2 hfile)]
      refine onError_inv h.toTurn (.inr (.inr ?_)) _
      by_contra hne
      exact hfile (hready.later hne).1
  · next hrpc =>
    obtain ⟨hturn, hrpc'⟩ := h.toTurn.linkRead hrpc p
    obtain ⟨hnil, hcount⟩ := hturn.opening hrpc' rfl
    split
    · exact onError_inv hturn (.inr (.inr hnil)) _
    · exact nfssymlink_inv hturn.toCalls hturn.status hnil (by simp only [Rpc.place] at hcount; omega)
  · next hrpc =>
    exact return_inv (c := { c with statics := { c.statics with fsMounted := false } })
      ⟨h.sound, h.depth, h.rpcId, h.sent, h.wire⟩ (.inl (h.failed (by rw [hrpc]; simp)))

theorem onTimeout_inv (h : Waiting F file wire base n c) : Inv F file wire c.onTimeout := by
  rw [onTimeout]
  split
  · -- the same call goes out again
    refine Waiting.inv (n := n) ⟨⟨⟨h.sound, h.depth, h.rpcId, ?_, ?_⟩, h.status, h.count, ?_⟩, h.pos, h.id, h.read⟩
    · show ∀ s ∈ c.sent ++ [_], _
      rw [List.forall_mem_append, List.forall_mem_singleton]
      exact ⟨h.sent, n - 1, Nat.sub_lt h.pos Nat.one_pos, h.id, fun _ => rfl⟩
    · intro p hp
      obtain ⟨s, hs, hans⟩ := h.wire p hp
      exact ⟨s, List.mem_append_left _ hs, hans⟩
    · exact h.ready.congr rfl rfl rfl rfl rfl rfl (fun hex => hex)
  · refine onError_inv (c := { c with retries := c.retries + 1, exhausted := true })
      (h.toTurn.congr rfl rfl rfl rfl rfl rfl rfl ?_) (.inl rfl) (-1)
    exact h.ready.congr rfl rfl rfl rfl rfl rfl (fun _ => rfl)

theorem step_inv (hF : F.length < 2 ^ 31) {w w' : World} (h : Inv F file w.wire w.client)
    (hs : Step F file w w') : Inv F file w'.wire w'.client := by
  obtain ⟨base, n, hcalls, hwait, hret⟩ := h
  cases hs with
  | timeout =>
    rw [step]
    split
    · next hw => exact onTimeout_inv (hwait hw)
    · exact ⟨base, n, hcalls, hwait, hret⟩
  | deliver p rc hp =>
    rw [step]
    split
    · next hw =>
      rw [turn]
      split
      · next haccept =>
        simp only [Packet.awaitRpc, decide_eq_true_eq] at haccept
        exact onReply_inv hF (hwait hw) ((hwait hw).answers hF hp haccept.2.2.2.1) rc
      · exact ⟨base, n, hcalls, hwait, hret⟩
    · exact ⟨base, n, hcalls, hwait, hret⟩
  | answer s p hs hp =>
    have hcalls' : Calls F file (w.wire ++ [p]) base n w.client := by
      refine ⟨hcalls.sound, hcalls.depth, hcalls.rpcId, hcalls.sent, ?_⟩
      rw [List.forall_mem_append, List.forall_mem_singleton]
      exact ⟨hcalls.wire, s, hs, hp⟩
    refine ⟨base, n, hcalls', fun hw => ?_, hret⟩
    have hold := hwait hw
    exact ⟨⟨hcalls', hold.status, hold.count, hold.ready⟩, hold.pos, hold.id, hold.read⟩

end Turn

/-! ## Reachable states -/

variable {F : List UInt8} {file : List UInt8 → Prop}

theorem reachable_inv (hF : F.length < 2 ^ 31) {w : World}
    (h : (system F file).Reachable w) : Inv F file w.wire w.client := by
  refine h.invariant (fun w hw => ?_) (fun _ _ _ => step_inv hF)
  obtain ⟨cfg, statics, name, stack, hid, rfl⟩ := hw
  refine nfssymlink_inv (?_ : Calls F file [] statics.rpcId 0 (initial cfg statics name stack)) rfl rfl
    (Nat.zero_le _)
  exact ⟨sound_nil F, Nat.zero_le _, (Nat.mod_eq_of_lt hid).symm, fun s hs => absurd hs List.not_mem_nil,
    fun p hp => absurd hp List.not_mem_nil⟩

theorem onBlock_blocks (c : Client) (p : Packet) (rc : Int) :
    (c.onBlock p rc).blocks = c.blocks ++ [c.pass p rc] := by
  rw [onBlock]
  split
  · rw [umountall]
    split <;> rfl
  · rw [advance]
    split_ifs <;> rfl

/-- A block is passed on with every answer that reaches the client while it reads the file. -/
theorem Waiting.block_passed {wire : List Packet}
    {base n : Nat} {c : Client} (h : Waiting F file wire base n c) (hrpc : c.rpc = .read)
    (hfile : file c.filefh) {p : Packet} (hp : Answers F file c.call p)
    (haccept : p.awaitRpc c.cfg.clientIp c.sport c.call.id) (rc : Int) :
    (c.step (.packet p rc)).blocks.length = c.blocks.length + 1 := by
  obtain ⟨hprog, hproc, hargs⟩ := h.read hrpc
  have hreply := (hp.read hprog hproc _ _ _ (by omega) (by omega) hargs).1 hfile
  have hok : p.result = 0 := if_pos hreply.succeeded
  have hsource : c.source c.rpc = c.sport := by
    rw [hrpc]
    rfl
  rw [step, if_pos h.status, turn, hsource, if_pos haccept, onReply, hrpc]
  simp only [hok, ne_eq, not_true_eq_false, if_false, onBlock_blocks, List.length_append,
    List.length_singleton]

/-- **Integrity of a download.** Whatever is lost, comes twice or comes late, what has been passed on is
    the beginning of the file, in blocks that are numbered from 1 on, and just the block that completes
    the file is passed on as its end. After it, if no call has run out of retries and `fnc` has not
    refused a block, `nfs` returns success; before it goes on reading, and every answer brings another
    block. -/
theorem passes_file_in_blocks {F : List UInt8} (hF : F.length < 2 ^ 31) {file : List UInt8 → Prop}
    {w : World} (h : (system F file).Reachable w) :
    delivered w.client.blocks <+: F ∧ w.client.blocks.length ≤ F.length / 1024 + 1 ∧
      (∀ pre b post, w.client.blocks = pre ++ b :: post →
        b.block = pre.length + 1 ∧ b.len = b.data.length ∧
          (b.eof = true ↔ delivered pre ++ b.data = F) ∧ (b.eof = true → post = [])) ∧
      (∀ init b, w.client.blocks = init ++ [b] → w.client.exhausted = false →
        (∀ a ∈ w.client.blocks, 0 < a.rc) →
          if b.eof then w.client.status = .returned 1
          else w.client.status = .waiting ∧ w.client.rpc = .read ∧ file w.client.filefh) ∧
      (w.client.status = .waiting → w.client.rpc = .read → file w.client.filefh → ∀ p rc,
        Answers F file w.client.call p → p.awaitRpc w.client.cfg.clientIp w.client.sport w.client.call.id →
          (w.client.step (.packet p rc)).blocks.length = w.client.blocks.length + 1) := by
  obtain ⟨base, n, hcalls, hwait, hret⟩ := reachable_inv hF h
  have hsound := hcalls.sound
  refine ⟨hsound.delivered ▸ List.take_prefix .., hsound.length_le, fun pre b post heq => ?_, ?_, ?_⟩
  · obtain ⟨hb, heof, hlast⟩ := hsound.split heq
    exact ⟨hb.block, hb.len, heof, hlast⟩
  · intro init b heq hex hrc
    have hnot : ¬ Failed w.client := by
      rintro (htrue | ⟨a, ha, hle⟩ | hnil)
      · cases hex.symm.trans htrue
      · exact absurd (hrc a ha) (by omega)
      · simp [hnil] at heq
    have hlength : w.client.blocks.length = init.length + 1 := by rw [heq]; simp
    obtain ⟨hb, -⟩ := hsound.split heq
    cases hstatus : w.client.status with
    | returned rc =>
      obtain ⟨rfl, hall⟩ := (hret rc hstatus).resolve_left hnot
      rw [if_pos (hb.eof.mpr (hlength ▸ hall))]
    | waiting =>
      have hturn := (hwait hstatus).toTurn
      have hrpc : w.client.rpc = .read := by
        by_contra hne
        exact hnot (hturn.failed hne)
      have hready := hturn.ready
      rw [hrpc] at hready
      obtain ⟨hfile, hlt, -⟩ := hready.later (by rw [heq]; simp)
      have hoffs := hready.offs
      rw [if_neg (fun heof => ?_)]
      · exact ⟨rfl, hrpc, hfile⟩
      · have hend := hb.eof.mp heof
        omega
  · intro hw hrpc hfile p rc hp haccept
    exact (hwait hw).block_passed hrpc hfile hp haccept rc

/-! ## A download -/

/-- A packet for the client 10.0.0.2 with a successful reply to the call `id`. The server's verifier is of
    the kind `flavor`. -/
def smallPacket (id flavor : Nat) (verifier result : List UInt8) : Packet :=
  let bytes := words [id, msgReply, 0, flavor] ++ xdrString verifier ++ words [0, 0] ++ result
  ⟨0x0a000002, 700, 42 + bytes.length, Store.splice (fun _ => 0) 0 bytes⟩

/-- The client's last call is answered, and the answer arrives. -/
def Client.exchange (c : Client) (flavor : Nat) (verifier result : List UInt8) : Client :=
  c.step (.packet (smallPacket c.call.id flavor verifier result) 1)

theorem reachable_exchange {w : World}
    (h : (system F file).Reachable w) (s : Sent) (hs : s ∈ w.client.sent) (hcall : s.call = w.client.call)
    {r : List UInt8} (hp : Answers F file w.client.call (smallPacket w.client.call.id 0 [] r)) :
    (system F file).Reachable
      ⟨w.client.exchange 0 [] r, w.wire ++ [smallPacket w.client.call.id 0 [] r]⟩ :=
  .step (.step h (.answer w s _ hs (hcall ▸ hp)))
    (.deliver _ _ 1 (List.mem_append_right _ (List.mem_singleton_self _)))

/-- A client that knows the ports, for the file `/x`. -/
def smallClient : Client :=
  Client.start ⟨0x0a000002, 0x0a000001, []⟩ ⟨700, 1000, 2049, false, 5⟩ [47, 120] (fun _ => 0)

/-- The handle of every file on this server. -/
def smallHandle : List UInt8 := List.replicate 32 1

def smallMounted : Client := smallClient.exchange 0 [] smallHandle

/-- The file has been found. -/
def smallReader : Client := smallMounted.exchange 0 [] smallHandle

def smallWire : List Packet :=
  [smallPacket smallClient.call.id 0 [] smallHandle, smallPacket smallMounted.call.id 0 [] smallHandle]

theorem smallReader_reachable : (system [7, 9] (· = smallHandle)).Reachable ⟨smallReader, smallWire⟩ := by
  have h0 : (system [7, 9] (· = smallHandle)).Reachable ⟨smallClient, []⟩ :=
    .init ⟨_, _, _, _, by decide, rfl⟩
  have h1 := reachable_exchange h0 (r := smallHandle) ⟨700, 1000, smallClient.call⟩ (by decide +kernel) rfl
    ⟨by decide +kernel, fun hprog => absurd hprog (by decide +kernel)⟩
  exact reachable_exchange h1 (r := smallHandle) ⟨700, 2049, smallMounted.call⟩ (by decide +kernel) rfl
    ⟨by decide +kernel, fun _ hproc => absurd hproc (by decide +kernel)⟩

/-- The answer to the READ: the attributes of the file, with its size and the time of its last change, and its
    two bytes. -/
def smallResult : List UInt8 :=
  words [1, 0, 1, 0, 0, 2, 0, 0, 0, 0, 0, 0, 0, 0, 0, 1, 0, 2] ++ [7, 9]

theorem smallReader_args : smallReader.call.args = smallHandle ++ words [0, 1024, 0] := by decide +kernel

theorem two_bytes_passed :
    ∃ w, (system [7, 9] (· = smallHandle)).Reachable w ∧ w.client.blocks = [⟨[7, 9], 1, 2, true, 1⟩] ∧
      w.client.status = .returned 1 ∧ delivered w.client.blocks <+: [7, 9] := by
  have h := reachable_exchange smallReader_reachable (r := smallResult) ⟨700, 2049, smallReader.call⟩
    (by decide +kernel) rfl ⟨by decide +kernel, fun _ _ fh offset count ho hc hargs => ?_⟩
  · exact ⟨_, h, by decide +kernel, by decide +kernel, (passes_file_in_blocks (by decide) h).1⟩
  · obtain ⟨rfl, rfl, rfl⟩ := read_args_inj (by decide) ho (by decide) hc (smallReader_args.symm.trans hargs)
    exact ⟨fun _ => ⟨by decide +kernel, by decide +kernel, by decide +kernel, by unfold Store.Has; decide +kernel⟩,
      fun hne => absurd rfl hne⟩

/-- The server answers the READ with an AUTH_SHORT verifier of eight bytes. If these are zeros, the owner's id
    is taken for the size of the file and the time of its last change for the length, and what is passed on is
    not of the file. If the first of them is not zero, `nfs` gives up. -/
theorem verifier_misread :
    (system [7, 9] (· = smallHandle)).Reachable ⟨smallReader, smallWire⟩ ∧
      smallReader.rpc = .read ∧ smallReader.call.args = smallHandle ++ words [0, 1024, 0] ∧
      (smallReader.exchange 2 [0, 0, 0, 0, 0, 0, 0, 0] smallResult).blocks = [⟨[0], 1, 1, false, 1⟩] ∧
      ¬ delivered (smallReader.exchange 2 [0, 0, 0, 0, 0, 0, 0, 0] smallResult).blocks <+: [7, 9] ∧
      (smallReader.exchange 2 [1, 0, 0, 0, 0, 0, 0, 0] smallResult).blocks = [] ∧
      (smallReader.exchange 2 [1, 0, 0, 0, 0, 0, 0, 0] smallResult).rpc = .umountall 0 :=
  ⟨smallReader_reachable, by decide +kernel, smallReader_args, by decide +kernel, by decide +kernel,
    by decide +kernel, by decide +kernel⟩

end Nfs
