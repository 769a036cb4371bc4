import Etherboot.Lib.Emit
import Etherboot.Nfs.Path

set_option autoImplicit false

/-! # The buffers of the NFS client

A call is put together in a `struct rpc_t` on the stack, with 300 bytes behind the two headers. What goes
in are the host name, a path and a file handle, and no function compares their lengths with the buffer.
`Client.build` is what the functions of `core/nfs.c` do to the buffer for each call; its footprint is the
message itself (`emits_build`). The path is kept in `dirname`, which has 300 bytes as well: the file name is
copied there as it is, but a link is cut to fit. -/

namespace Nfs

open Memory Prog Client Store

/-- `sizeof(struct rpc_t)`: the two headers and `u.data`. -/
def sizeofRpc : Nat := 20 + 8 + 300

/-- Where `u.call` is. -/
def callOffset : Nat := 20 + 8

/-- `sizeof dirname` -/
def dirnameSize : Nat := 300

/-! ## Writing a call -/

/-- `*p++ = htonl(v)`, for each of the words. -/
def putWords (p : Nat) : List Nat → Prog Nat
  | [] => pure p
  | v :: vs => do
      let p ← emit p (be32Bytes v)
      putWords p vs

/-- `if (n & 3) *(p + n / 4) = 0`, the zeros behind a text. -/
def putPadding (p n : Nat) : Prog Unit :=
  if n % 4 ≠ 0 then writeBytes (p + n / 4 * 4) (be32Bytes 0) else pure ()

/-- A text is copied over its padding. -/
def putText (p : Nat) (text : List UInt8) : Prog Nat := do
  putPadding p text.length
  writeBytes p text
  pure (p + (text.length + 3) / 4 * 4)

/-- `rpc_add_credentials` on the buffer. -/
def putCredentials (p : Nat) (hostname : List UInt8) : Prog Nat := do
  let p ← putWords p [1, (hostname.length + 3) / 4 * 4 + 20, 0, hostname.length]
  let p ← putText p hostname
  putWords p [0, 0, 0, 0, 0]

/-- The head of a call and its credentials. -/
def putHead (id prog vers proc : Nat) (hostname : List UInt8) : Prog Nat := do
  let p ← putWords callOffset [id, msgCall, 2, prog, vers, proc]
  putCredentials p hostname

/-- `rpc_lookup` -/
def buildGetport (id prog vers : Nat) : Prog Nat :=
  putWords callOffset [id, msgCall, 2, progPortmap, 2, portmapGetport, 0, 0, 0, 0, prog, vers, 17, 0]

/-- `nfs_mount` -/
def buildMount (id : Nat) (hostname path : List UInt8) : Prog Nat := do
  let p ← putHead id progMount 1 mountAddentry hostname
  let p ← putWords p [path.length]
  putText p path

/-- `nfs_umountall` -/
def buildUmountall (id : Nat) (hostname : List UInt8) : Prog Nat :=
  putHead id progMount 1 mountUmountall hostname

/-- `nfs_lookup` -/
def buildLookup (id : Nat) (hostname fh path : List UInt8) : Prog Nat := do
  let p ← putHead id progNfs 2 nfsLookup hostname
  let p ← emit p fh
  let p ← putWords p [path.length]
  putText p path

/-- `nfs_readlink` -/
def buildReadlink (id : Nat) (hostname fh : List UInt8) : Prog Nat := do
  let p ← putHead id progNfs 2 nfsReadlink hostname
  emit p fh

/-- `nfs_read` -/
def buildRead (id : Nat) (hostname fh : List UInt8) (offset len : Int) : Prog Nat := do
  let p ← putHead id progNfs 2 nfsRead hostname
  let p ← emit p fh
  putWords p [(offset % 2 ^ 32).toNat, (len % 2 ^ 32).toNat, 0]

/-- What is written for a call. -/
def Client.build (c : Client) : Rpc → Prog Nat
  | .mountPort => buildGetport c.statics.rpcId progMount 1
  | .nfsPort => buildGetport c.statics.rpcId progNfs 2
  | .mount => buildMount c.statics.rpcId c.cfg.hostname (text c.dirname 0)
  | .lookup => buildLookup c.statics.rpcId c.cfg.hostname c.dirfh (text c.dirname c.fname)
  | .read => buildRead c.statics.rpcId c.cfg.hostname c.filefh c.offs c.len
  | .readlink => buildReadlink c.statics.rpcId c.cfg.hostname c.filefh
  | .umountall _ => buildUmountall c.statics.rpcId c.cfg.hostname

/-! ## What is written is the message -/

theorem emits_putWords (p : Nat) (vs : List Nat) : Emits (putWords p vs) p (words vs) := by
  induction vs generalizing p with
  | nil => exact emits_pure p
  | cons v vs ih => exact (emits_emit p (be32Bytes v)).bind (ih _)

theorem length_padded (text : List UInt8) : (padded text).length = (text.length + 3) / 4 * 4 := by
  rw [padded, List.length_append, List.length_replicate]
  omega

theorem splice_padded (b : Store) (p : Nat) (text : List UInt8) :
    ((putPadding p text.length).run b).2.splice p text = b.splice p (padded text) := by
  rw [padded, ← splice_append, putPadding, run_ite, run_writeBytes, run_pure]
  split
  · next hpad =>
    show (b.splice (p + text.length / 4 * 4) (List.replicate 4 0)).splice p text = _
    funext i
    rcases Nat.lt_or_ge i (p + text.length) with htext | htext
    · rw [splice_of_lt _ _ htext]
      rcases Nat.lt_or_ge i p with hlt | hge
      · rw [splice_of_lt _ _ hlt, splice_of_lt _ _ hlt, splice_of_lt _ _ (by omega)]
      · obtain ⟨k, rfl⟩ := Nat.exists_eq_add_of_le hge
        rw [splice_add _ _ _ (by omega), splice_add _ _ _ (by omega)]
    · unfold splice
      simp only [List.length_replicate, List.get_eq_getElem, List.getElem_replicate]
      have hiff : (p + text.length / 4 * 4 ≤ i ∧ i - (p + text.length / 4 * 4) < 4) ↔
          (p + text.length ≤ i ∧
            i - (p + text.length) < (text.length + 3) / 4 * 4 - text.length) := by omega
      have hnot : ¬ (p ≤ i ∧ i - p < text.length) := by omega
      simp only [hiff, dif_neg hnot, dite_eq_ite]
  · next hpad =>
    have hnone : (text.length + 3) / 4 * 4 - text.length = 0 := by omega
    rw [hnone, List.replicate_zero, splice_nil]

variable {n : Nat} {c : Client}

theorem mem_touched_putPadding {p i : Nat} {b : Store} :
    i ∈ (putPadding p n).touched b ↔ n % 4 ≠ 0 ∧ p + n / 4 * 4 ≤ i ∧ i < p + n / 4 * 4 + 4 := by
  rw [putPadding]
  split
  · next hpad =>
    rw [mem_touched_writeBytes]
    exact (and_iff_right hpad).symm
  · next hpad => simp [hpad]

theorem emits_putText (p : Nat) (text : List UInt8) : Emits (putText p text) p (padded text) where
  run b := by
    rw [putText, run_bind, run_bind_of (run_writeBytes _ _ _), splice_padded, run_pure, length_padded]
  touched b i := by
    rw [putText, touched_bind, touched_bind, run_writeBytes, touched_pure, List.append_nil, List.mem_append,
      mem_touched_putPadding, mem_touched_writeBytes, length_padded]
    omega

theorem emits_putCredentials (p : Nat) (hostname : List UInt8) :
    Emits (putCredentials p hostname) p (rpcAddCredentials hostname) := by
  have h := (emits_putWords p [1, (hostname.length + 3) / 4 * 4 + 20, 0, hostname.length]).bind
    (f := fun p => putText p hostname >>= fun p => putWords p [0, 0, 0, 0, 0])
    ((emits_putText _ hostname).bind (emits_putWords _ [0, 0, 0, 0, 0]))
  have hbytes : words [1, (hostname.length + 3) / 4 * 4 + 20, 0, hostname.length] ++
      (padded hostname ++ words [0, 0, 0, 0, 0]) = rpcAddCredentials hostname := by
    simp [rpcAddCredentials, xdrString, words]
  rw [← hbytes]
  exact h

theorem emits_putHead (id prog vers proc : Nat) (hostname : List UInt8) :
    Emits (putHead id prog vers proc hostname) callOffset
      (words [id, msgCall, 2, prog, vers, proc] ++ rpcAddCredentials hostname) :=
  (emits_putWords _ _).bind (emits_putCredentials _ hostname)

theorem emits_xdrString (p : Nat) (text : List UInt8) :
    Emits (putWords p [text.length] >>= fun p => putText p text) p (xdrString text) := by
  exact (emits_putWords p [text.length]).bind (emits_putText _ text)

/-- **What is written for a call is the message.** -/
theorem emits_build (c : Client) (rpc : Rpc) : Emits (c.build rpc) callOffset (c.message rpc).bytes := by
  cases rpc with
  | mountPort => exact emits_putWords _ _
  | nfsPort => exact emits_putWords _ _
  | mount => exact (emits_putHead _ _ _ _ _).bind (emits_xdrString _ _)
  | lookup => exact (emits_putHead _ _ _ _ _).bind ((emits_emit _ _).bind (emits_xdrString _ _))
  | read => exact (emits_putHead _ _ _ _ _).bind ((emits_emit _ _).bind (emits_putWords _ _))
  | readlink => exact (emits_putHead _ _ _ _ _).bind (emits_emit _ _)
  | umountall rc =>
    have hbytes : (c.message (.umountall rc)).bytes =
        words [c.statics.rpcId, msgCall, 2, progMount, 1, mountUmountall] ++
          rpcAddCredentials c.cfg.hostname := List.append_nil _
    rw [hbytes]
    exact emits_putHead _ _ _ _ _

/-! ## Writing the path -/

/-- `memcpy(dirname, name, namelen + 1)` -/
def copyName (name : List UInt8) : Prog Unit := writeBytes 0 (name ++ [0])

/-- The link is appended to the path, cut to fit. -/
def appendLink (pathlen : Nat) (link : List UInt8) (n : Nat) : Prog Unit :=
  if n > 0 then writeBytes pathlen ((link ++ [0]).take (n + 1)) else pure ()

/-- What `nfs_readlink` writes to the path, which has the length `pathlen`. -/
def putLink (pathlen : Nat) (link : List UInt8) : Prog Unit :=
  if link.head? ≠ some 47 then do
    let n := (min (link.length : Int) (298 - (pathlen + 1 : Nat))).toNat
    writeByte pathlen 47
    appendLink (pathlen + 1) link n
    writeByte (pathlen + 1 + n) 0
  else do
    let n := min link.length 298
    writeBytes 0 ((link ++ [0]).take (n + 1))
    writeByte n 0

theorem run_appendLink (pathlen : Nat) (link : List UInt8) (n : Nat) (b : Store) :
    (appendLink pathlen link n).run b =
      ((), b.splice pathlen (if n > 0 then (link ++ [0]).take (n + 1) else [])) := by
  rw [appendLink, run_ite, run_writeBytes, run_pure]
  split
  · rfl
  · rw [splice_nil]

/-- **Writing the link makes the path that the client goes on with.** -/
theorem run_putLink (path : Store) (link : List UInt8) :
    (putLink (text path 0).length link).run path = ((), followLink path link) := by
  rw [putLink, followLink, run_ite]
  split
  · rw [run_bind, run_writeByte, run_bind, run_appendLink, run_writeByte]
  · rw [run_bind, run_writeBytes, run_writeByte]

/-- A link does not leave `dirname`, if the path in front of it leaves room for the slash and a null. -/
theorem within_putLink {pathlen : Nat} (h : pathlen + 2 ≤ dirnameSize) (link : List UInt8) (b : Store) :
    (putLink pathlen link).Within dirnameSize b := by
  have hlen (n : Nat) : ((link ++ [0]).take (n + 1)).length ≤ n + 1 := List.length_take_le _ _
  have hsize : dirnameSize = 300 := rfl
  simp only [putLink, within_ite]
  split
  · have hn : pathlen + 1 + (min (link.length : Int) (298 - (pathlen + 1 : Nat))).toNat < dirnameSize := by
      omega
    generalize (min (link.length : Int) (298 - (pathlen + 1 : Nat))).toNat = n at hn
    rw [within_bind_of (run_writeByte _ _ _), within_bind_of (run_appendLink _ _ _ _), within_writeByte,
      within_writeByte, appendLink, within_ite]
    refine ⟨by omega, ?_, hn⟩
    split
    · have := hlen n
      exact within_writeBytes.mpr (Or.inr (by omega))
    · exact within_pure _ _ _
  · have hn : min link.length 298 < dirnameSize := by omega
    generalize min link.length 298 = n at hn
    have := hlen n
    rw [within_bind_of (run_writeBytes _ _ _), within_writeBytes, within_writeByte]
    exact ⟨Or.inr (by omega), hn⟩

/-! ## Whole downloads -/

/-- The file name is copied to `dirname`, and cut there. -/
def NameInside (name : List UInt8) (stack : Store) : Prop :=
  (copyName name).Within dirnameSize stack ∧
    ∀ i, lastSlash ((copyName name).run stack).2 name.length = some i → i < dirnameSize

/-- A call that begins with the state `c` is written inside its buffer. The calls that unmount are made
    after the download and are left out. -/
def CallInside (c : Client) : Prop :=
  ∀ (m : Client) (rpc : Rpc), c = m.begin rpc → (∀ rc, rpc ≠ .umountall rc) →
    ∀ buf, (m.build rpc).Within sizeofRpc buf

/-- The text of a link is written inside `dirname`, and so is the null that cuts the path behind it. -/
def LinkInside (c : Client) (e : Event) : Prop :=
  ∀ p, c.TakesLink e p →
    (p.Succeeded → (putLink (text c.dirname 0).length (text p.body (Packet.dataOffset 2))).Within
      dirnameSize c.dirname) ∧
    ∀ i, lastSlash (c.linkRead p).dirname c.namelen = some i → i < dirnameSize

def SafeStep (c : Client) (e : Event) : Prop := CallInside c ∧ LinkInside c e

/-- The condition on the host name and the path that a call is made with. -/
def Client.Room (c : Client) : Rpc → Prop
  | .mount =>
    (c.cfg.hostname.length + 3) / 4 * 4 + ((text c.dirname 0).length + 3) / 4 * 4 ≤ 236
  | .lookup =>
    (c.cfg.hostname.length + 3) / 4 * 4 + ((text c.dirname c.fname).length + 3) / 4 * 4 ≤ 204
  | .read => c.cfg.hostname.length ≤ 196
  | .readlink => c.cfg.hostname.length ≤ 208
  | .mountPort | .nfsPort | .umountall _ => True

/-- All calls that begin with the state `c` have room. -/
def RoomyStep (c : Client) (_ : Event) : Prop :=
  ∀ (m : Client) (rpc : Rpc), c = m.begin rpc → m.Room rpc

theorem length_words (vs : List Nat) : (words vs).length = 4 * vs.length := by
  induction vs with
  | nil => rfl
  | cons v vs ih =>
    show (be32Bytes v ++ words vs).length = _
    rw [List.length_append, ih, List.length_cons]
    show 4 + _ = _
    omega

theorem length_credentials (hostname : List UInt8) :
    (rpcAddCredentials hostname).length = 36 + (hostname.length + 3) / 4 * 4 := by
  have hword (n : Nat) : (be32Bytes n).length = 4 := rfl
  simp only [rpcAddCredentials, xdrString, List.length_append, length_words, length_padded, hword,
    List.length_cons, List.length_nil]
  omega

/-- **Which calls fit.** -/
theorem within_build (hd : c.dirfh.length = fhSize) (hf : c.filefh.length = fhSize) {rpc : Rpc}
    (hrpc : ∀ rc, rpc ≠ .umountall rc) (buf : Store) :
    (c.build rpc).Within sizeofRpc buf ↔ c.Room rpc := by
  have hword (n : Nat) : (be32Bytes n).length = 4 := rfl
  have hne : (c.message rpc).bytes ≠ [] := List.cons_ne_nil _ _
  have hfh : fhSize = 32 := rfl
  have hsize : sizeofRpc = callOffset + 300 := rfl
  rw [(emits_build c rpc).within hne, hsize, Nat.add_le_add_iff_left]
  cases rpc with
  | mountPort => exact iff_of_true (by decide : 56 ≤ 300) trivial
  | nfsPort => exact iff_of_true (by decide : 56 ≤ 300) trivial
  | mount =>
    simp only [message, mountCall, Call.bytes, xdrString, List.length_append, length_words,
      length_credentials, length_padded, hword, List.length_cons, List.length_nil, Room]
    omega
  | lookup =>
    simp only [message, lookupCall, Call.bytes, xdrString, List.length_append, length_words,
      length_credentials, length_padded, hword, List.length_cons, List.length_nil, Room, hd]
    omega
  | read =>
    simp only [message, readCall, Call.bytes, List.length_append, length_words,
      length_credentials, List.length_cons, List.length_nil, Room, hf]
    omega
  | readlink =>
    simp only [message, readlinkCall, Call.bytes, List.length_append, length_words,
      length_credentials, List.length_cons, List.length_nil, Room, hf]
    omega
  | umountall rc => exact absurd rfl (hrpc rc)

theorem callInside_iff (h : PathInv n c) (e : Event) : CallInside c ↔ RoomyStep c e := by
  constructor
  · intro hin m rpc hm
    by_cases hrpc : ∀ rc, rpc ≠ .umountall rc
    · subst hm
      exact (within_build (c := m) h.dirfh h.filefh hrpc (fun _ => 0)).mp (hin m rpc rfl hrpc _)
    · cases rpc with
      | umountall rc => trivial
      | _ => exact absurd (fun rc => Rpc.noConfusion) hrpc
  · rintro hroom m rpc rfl hrpc buf
    exact (within_build (c := m) h.dirfh h.filefh hrpc buf).mpr (hroom m rpc rfl)

theorem linkInside (h : PathInv n c) (hn : n < dirnameSize) (e : Event) : LinkInside c e := by
  rintro p ⟨hst, -⟩
  have hcut := h.cut hst
  refine ⟨fun _ => within_putLink (by omega) _ _, fun i hi => ?_⟩
  have hlt := (lastSlash_eq_some.mp hi).1
  have := h.namelen
  omega

theorem within_copyName {name : List UInt8} {stack : Store} :
    (copyName name).Within dirnameSize stack ↔ name.length < dirnameSize := by
  rw [copyName, within_writeBytes, or_iff_right (List.append_ne_nil_of_right_ne_nil _ (List.cons_ne_nil _ _)),
    List.length_append, Nat.zero_add, List.length_singleton]
  exact Nat.succ_le_iff

/-- **The buffers of a download.** Neither the calls nor the path leave their buffers exactly if the file
    name has fewer than 300 bytes and each call has room for host name and path. -/
theorem buffers_inside_iff (cfg : Config) (statics : Statics) (name : List UInt8) (stack : Store)
    (es : List Event) :
    (NameInside name stack ∧
        AllSteps Client.step SafeStep (Client.start cfg statics name stack) es) ↔
      name.length < dirnameSize ∧
        AllSteps Client.step RoomyStep (Client.start cfg statics name stack) es := by
  have hname : NameInside name stack ↔ name.length < dirnameSize := by
    rw [NameInside, within_copyName]
    apply and_iff_left_of_imp
    intro hlt i hi
    exact Nat.lt_trans (lastSlash_eq_some.mp hi).1 hlt
  rw [hname]
  apply and_congr_right
  intro hlt
  refine allSteps_iff (PathInv name.length) (fun c e h => ?_) (fun c e h _ => h.step e)
    (start_pathInv cfg statics name stack) es
  rw [SafeStep, callInside_iff h e, and_iff_left (linkInside h hlt e)]

/-- A host name of 255 bytes. -/
def longHost : Config := ⟨1, 2, List.replicate 255 120⟩

/-- A mount for a file in a directory with a short name. -/
def longHostStart : Client :=
  Client.start longHost ⟨700, 635, 2049, false, 1⟩ [47, 97, 47, 98] (fun _ => 0)

theorem long_host_and_long_name :
    ¬ AllSteps Client.step SafeStep longHostStart [.timeout] ∧
      ¬ NameInside (List.replicate 300 47) (fun _ => 0) := by
  constructor
  · rintro ⟨⟨hcall, -⟩, -⟩
    have hinv : PathInv 4 longHostStart := start_pathInv _ _ [47, 97, 47, 98] _
    have hroom := (callInside_iff hinv .timeout).mp hcall
      { initial longHost ⟨700, 635, 2049, false, 1⟩ [47, 97, 47, 98] (fun _ => 0) with
        recursion := 1, dirname := (splice (fun _ => 0) 0 [47, 97, 47, 98, 0]).set 2 0, fname := 3 }
      .mount rfl
    have hlen : longHost.hostname.length = 255 := List.length_replicate
    simp only [Room] at hroom
    have hhost : (255 + 3) / 4 * 4 ≤ 236 := Nat.le_trans (Nat.le_add_right _ _) (hlen ▸ hroom)
    omega
  · rintro ⟨hname, -⟩
    rw [within_copyName, List.length_replicate] at hname
    exact Nat.lt_irrefl _ hname

end Nfs
