import Etherboot.Nfs.Path

set_option autoImplicit false

/-! # Symbolic links

A link is followed by writing the new path over the old one and cutting it at a slash again. Two things
are taken for granted there. The text of the link in the reply is read up to a null, not for the length
that stands in front of it. And the slash is looked for in as many bytes as the first file name had, not in
the new path. `links_followed_iff` says exactly which links are followed rightly. -/

namespace Nfs

open Memory Client Store Packet

/-! ## The new path -/

/-- The text of a link in a reply, by its length there. -/
def linkText (p : Packet) : List UInt8 := p.body.slice (Packet.dataOffset 2) (p.data 1)

/-- The path that a link in the directory `dir` stands for. -/
def resolve (dir link : List UInt8) : List UInt8 := if link.head? = some 47 then link else dir ++ 47 :: link

/-- What `nfs_readlink` makes of it, with the text `link` as it is read. -/
def written (dir link : List UInt8) : List UInt8 :=
  if link.head? = some 47 then link.take 298 else dir ++ 47 :: link.take (298 - (dir.length + 1))

/-- A relative link is appended to a path that leaves room for a slash. -/
def Fits (dir link : List UInt8) : Prop := link.head? = some 47 ∨ dir.length + 1 ≤ 298

theorem splice_set_last (s : Store) (p : Nat) (xs : List UInt8) (y v : UInt8) :
    (s.splice p (xs ++ [y])).set (p + xs.length) v = s.splice p (xs ++ [v]) := by
  rw [← splice_append, ← splice_append, set_eq_splice, splice_splice_self]
  rfl

variable {link dir : List UInt8}

theorem take_null {n : Nat} (h : n ≤ link.length) :
    ∃ y, (link ++ [0]).take (n + 1) = link.take n ++ [y] := by
  have hlt : n < (link ++ [0]).length := by
    rw [List.length_append, List.length_singleton]
    omega
  refine ⟨(link ++ [0]).get ⟨n, hlt⟩, ?_⟩
  rw [List.take_succ_eq_append_getElem hlt, List.take_append_of_le_length h]
  rfl

/-- A text that is copied with the byte behind it, which becomes a null. -/
theorem splice_take (s : Store) (p : Nat) {n : Nat} (h : n ≤ link.length) :
    (s.splice p ((link ++ [0]).take (n + 1))).set (p + n) 0 = s.splice p (link.take n ++ [0]) := by
  obtain ⟨y, hy⟩ := take_null h
  have hlen : (link.take n).length = n := by rw [List.length_take, Nat.min_eq_left h]
  have hset := splice_set_last s p (link.take n) y 0
  rw [hlen] at hset
  rw [hy, hset]

theorem take_min (link : List UInt8) (k : Nat) : link.take (min link.length k) = link.take k := by
  rw [Nat.min_comm, ← List.take_take, List.take_length]

/-- **The path after a link.** -/
theorem followLink_eq (path : Store) (link : List UInt8) :
    followLink path link = path.splice 0 (written (text path 0) link ++ [0]) := by
  have hhas : path.Has 0 (text path 0) := (cstring_spec path (2 ^ 32) 0).1
  rw [followLink, written]
  generalize text path 0 = dir at *
  by_cases habs : link.head? = some 47
  · rw [if_neg (not_not.mpr habs), if_pos habs, ← take_min link 298]
    have hcopy := splice_take path 0 (Nat.min_le_left link.length 298)
    rw [Nat.zero_add] at hcopy
    exact hcopy
  · rw [if_pos habs, if_neg habs]
    have hn : (min (link.length : Int) (298 - (dir.length + 1 : Nat))).toNat =
        min link.length (298 - (dir.length + 1)) := by omega
    have hslash : path.set dir.length 47 = path.splice 0 (dir ++ [47]) := by
      rw [set_eq_splice, ← splice_append, splice_self hhas, Nat.zero_add]
    have hnew : dir ++ 47 :: link.take (298 - (dir.length + 1)) ++ [0] =
        (dir ++ [47]) ++ (link.take (min link.length (298 - (dir.length + 1))) ++ [0]) := by
      rw [take_min]
      simp
    simp only [hn, hslash]
    rw [hnew, ← splice_append path 0 (dir ++ [47]), Nat.zero_add, List.length_append, List.length_singleton]
    by_cases hzero : min link.length (298 - (dir.length + 1)) > 0
    · rw [if_pos hzero]
      exact splice_take _ _ (Nat.min_le_left _ _)
    · rw [if_neg hzero, Nat.eq_zero_of_not_pos hzero, splice_nil, Nat.add_zero, set_eq_splice]
      rfl

theorem written_ne_zero (hdir : ∀ c ∈ dir, c ≠ 0) (hlink : ∀ c ∈ link, c ≠ 0) :
    ∀ c ∈ written dir link, c ≠ 0 := by
  intro c hc
  rw [written] at hc
  split at hc
  · exact hlink c (List.mem_of_mem_take hc)
  · rcases List.mem_append.mp hc with hc | hc
    · exact hdir c hc
    · rcases List.mem_cons.mp hc with rfl | hc
      · decide
      · exact hlink c (List.mem_of_mem_take hc)

theorem length_written_le (h : Fits dir link) : (written dir link).length ≤ 298 := by
  rw [written]
  split
  · exact List.length_take_le _ _
  · next habs =>
    have hdir := h.resolve_left habs
    have := List.length_take_le (298 - (dir.length + 1)) link
    rw [List.length_append, List.length_cons]
    omega

theorem text_followLink (path body : Store) (p : Nat) (h : Fits (text path 0) (text body p)) :
    text (followLink path (text body p)) 0 = written (text path 0) (text body p) := by
  have hlen := length_written_le h
  have hne : ∀ c ∈ written (text path 0) (text body p), c ≠ 0 :=
    written_ne_zero (cstring_spec path (2 ^ 32) 0).2.1 (cstring_spec body (2 ^ 32) p).2.1
  rw [followLink_eq]
  generalize written (text path 0) (text body p) = new at *
  obtain ⟨hnew, hnull⟩ := has_append.mp (slice_splice_self path 0 (new ++ [0]))
  refine cstring_eq hnew hne (has_cons.mp hnull).1 ?_
  exact Nat.lt_of_le_of_lt hlen (by decide)

/-! ## The text of the link -/

/-- The text as it is read gives the path that the link stands for. Only the empty link has another way to
    do so: the bytes behind it are taken for an absolute path, and by chance for the right one. -/
def TextRead (dir : List UInt8) (p : Packet) : Prop :=
  text p.body (Packet.dataOffset 2) = linkText p ∨
    (linkText p = [] ∧ (text p.body (Packet.dataOffset 2)).head? = some 47 ∧
      (text p.body (Packet.dataOffset 2)).take 298 = dir ++ [47])

theorem written_of_short (h : (resolve dir link).length < 298) : written dir link = resolve dir link := by
  rw [resolve] at h ⊢
  rw [written]
  split
  · next habs =>
    rw [if_pos habs] at h
    exact List.take_of_length_le (by omega)
  · next habs =>
    rw [if_neg habs, List.length_append, List.length_cons] at h
    rw [List.take_of_length_le (by omega)]

theorem length_written_lt {more : List UInt8} (hlink : link ≠ []) (hmore : more ≠ [])
    (h : (resolve dir link).length < 298) :
    (resolve dir link).length < (written dir (link ++ more)).length := by
  have hpos := List.length_pos_iff.mpr hmore
  have hhead : (link ++ more).head? = link.head? := by
    obtain ⟨c, cs, rfl⟩ := List.exists_cons_of_ne_nil hlink
    rfl
  rw [resolve] at h ⊢
  rw [written, hhead]
  split
  · next habs =>
    rw [if_pos habs] at h
    rw [List.length_take, List.length_append]
    omega
  · next habs =>
    rw [if_neg habs, List.length_append, List.length_cons] at h
    simp only [List.length_append, List.length_cons, List.length_take]
    omega

/-- What is read of a link, compared with its length: all of it, less of it up to a null, or more. -/
theorem text_cases (p : Packet) :
    text p.body (dataOffset 2) = linkText p ∨ 0 ∈ linkText p ∨
      ∃ more, more ≠ [] ∧ text p.body (dataOffset 2) = linkText p ++ more := by
  obtain ⟨hhas, -, hnull⟩ := cstring_spec p.body (2 ^ 32) (dataOffset 2)
  have hdata : p.data 1 < 2 ^ 32 := by
    have hhigh := be16_lt p.body (4 * (6 + 1))
    have hlow := be16_lt p.body (4 * (6 + 1) + 2)
    rw [data, word, be32]
    omega
  change p.body.slice _ (text p.body (dataOffset 2)).length = text p.body _ at hhas
  change (text p.body (dataOffset 2)).length < _ → p.body (_ + (text p.body _).length) = 0 at hnull
  generalize text p.body (dataOffset 2) = link at hhas hnull
  rcases Nat.lt_trichotomy link.length (p.data 1) with hlt | heq | hgt
  · refine Or.inr (Or.inl (List.mem_map.mpr ⟨link.length, List.mem_range.mpr hlt, ?_⟩))
    exact hnull (by omega)
  · exact Or.inl (hhas.symm.trans (by rw [linkText, heq]))
  · obtain ⟨k, hk⟩ := Nat.exists_eq_add_of_lt hgt
    refine Or.inr (Or.inr ⟨p.body.slice (dataOffset 2 + p.data 1) (k + 1), ?_, ?_⟩)
    · exact List.ne_nil_of_length_pos (by rw [length_slice]; omega)
    · rw [linkText, ← slice_append, ← Nat.add_assoc, ← hk, hhas]

theorem zero_mem_resolve (h : 0 ∈ link) : 0 ∈ resolve dir link := by
  rw [resolve]
  split
  · exact h
  · exact List.mem_append_right _ (List.mem_cons_of_mem _ h)

/-- **Which texts are read rightly.** -/
theorem written_eq_iff (hdir : ∀ c ∈ dir, c ≠ 0) {p : Packet}
    (h : (resolve dir (linkText p)).length < 298) :
    written dir (text p.body (dataOffset 2)) = resolve dir (linkText p) ↔ TextRead dir p := by
  have hne := (cstring_spec p.body (2 ^ 32) (dataOffset 2)).2.1
  change ∀ c ∈ text p.body (dataOffset 2), c ≠ 0 at hne
  rw [TextRead]
  rcases text_cases p with heq | hzero | ⟨more, hmore, heq⟩
  · rw [heq]
    exact iff_of_true (written_of_short h) (Or.inl rfl)
  · -- a null in the link never reaches the path
    refine iff_of_false (fun hw => ?_) ?_
    · have hmem : 0 ∈ written dir (text p.body (dataOffset 2)) := hw ▸ zero_mem_resolve hzero
      exact written_ne_zero hdir hne 0 hmem rfl
    · rintro (heq | ⟨hnil, -⟩)
      · exact hne 0 (heq ▸ hzero) rfl
      · exact List.not_mem_nil (hnil ▸ hzero)
  · rw [heq]
    have hlonger : ¬ linkText p ++ more = linkText p := fun hsame =>
      hmore (List.append_right_eq_self.mp hsame)
    by_cases hnil : linkText p = []
    · rw [hnil, List.nil_append] at hlonger ⊢
      rw [hnil, resolve, if_neg (by simp), List.length_append, List.length_singleton] at h
      have hpos := List.length_pos_iff.mpr hmore
      have hres : resolve dir [] = dir ++ [47] := rfl
      rw [hres, written]
      split
      · next habs => simp [habs, hmore]
      · next habs =>
        refine iff_of_false (fun hw => ?_) (fun hr => hr.elim hmore (fun hr => habs hr.2.1))
        have hlen := congrArg List.length hw
        simp only [List.length_append, List.length_cons, List.length_take, List.length_nil] at hlen
        omega
    · refine iff_of_false (fun hw => ?_) (fun hr => hr.elim hlonger (fun hr => hnil hr.1))
      exact absurd (congrArg List.length hw) (Nat.ne_of_gt (length_written_lt hnil hmore h))

/-! ## The cut -/

section Cut

variable {path : Store} {dir file : List UInt8} {n : Nat}

theorem newPath_get (path : Store) (dir file : List UInt8) :
    let new := path.splice 0 (dir ++ 47 :: file ++ [0])
    new.Has 0 dir ∧ new dir.length = 47 ∧ new.Has (dir.length + 1) file ∧
      new (dir.length + 1 + file.length) = 0 := by
  have hhas := slice_splice_self path 0 (dir ++ 47 :: file ++ [0])
  obtain ⟨hpath, hnull⟩ := has_append.mp hhas
  obtain ⟨hdir, hrest⟩ := has_append.mp hpath
  obtain ⟨hslash, hfile⟩ := has_cons.mp hrest
  have hnull' := (has_cons.mp hnull).1
  rw [Nat.zero_add] at hslash hfile
  rw [Nat.zero_add, List.length_append, List.length_cons, ← Nat.add_assoc, Nat.add_right_comm] at hnull'
  exact ⟨hdir, hslash, hfile, hnull'⟩

theorem newPath_ne_slash (hfile : 47 ∉ file) {j : Nat} (hj : dir.length < j)
    (hend : j ≤ dir.length + 1 + file.length) :
    path.splice 0 (dir ++ 47 :: file ++ [0]) j ≠ 47 := by
  obtain ⟨-, -, hbytes, hnull⟩ := newPath_get path dir file
  obtain ⟨k, rfl⟩ := Nat.exists_eq_add_of_le (Nat.succ_le_of_lt hj)
  rcases Nat.lt_or_ge k file.length with hk | hk
  · rw [hbytes.get hk]
    intro heq
    exact hfile (heq ▸ List.getElem_mem hk)
  · rw [show dir.length + 1 + k = dir.length + 1 + file.length by omega, hnull]
    decide

theorem lastSlash_newPath (hfile : 47 ∉ file) :
    lastSlash (path.splice 0 (dir ++ 47 :: file ++ [0])) n = some dir.length ↔
      dir.length < n ∧ ∀ k, (dir ++ 47 :: file).length < k → k < n → path k ≠ 47 := by
  have hlen : (dir ++ 47 :: file).length = dir.length + 1 + file.length := by
    rw [List.length_append, List.length_cons]
    omega
  have hbehind {k : Nat} (hk : (dir ++ 47 :: file).length < k) :
      path.splice 0 (dir ++ 47 :: file ++ [0]) k = path k := by
    refine splice_of_ge _ _ ?_
    rw [List.length_append, List.length_singleton]
    omega
  rw [lastSlash_eq_some]
  apply and_congr_right
  intro hn
  rw [and_iff_right (newPath_get path dir file).2.1]
  constructor
  · intro hlast k hk hkn
    rw [← hbehind hk]
    exact hlast k (by omega) hkn
  · intro hrest j hj hjn
    rcases Nat.lt_or_ge (dir ++ 47 :: file).length j with hk | hk
    · rw [hbehind hk]
      exact hrest j hk hjn
    · exact newPath_ne_slash hfile hj (by omega)

theorem text_cut (hdir : ∀ c ∈ dir, c ≠ 0) (hfile : ∀ c ∈ file, c ≠ 0)
    (hlen : (dir ++ 47 :: file).length < 298) :
    text ((path.splice 0 (dir ++ 47 :: file ++ [0])).set dir.length 0) 0 = dir ∧
      text ((path.splice 0 (dir ++ 47 :: file ++ [0])).set dir.length 0) (dir.length + 1) = file := by
  obtain ⟨hd, -, hf, hnull⟩ := newPath_get path dir file
  rw [List.length_append, List.length_cons] at hlen
  constructor
  · refine cstring_eq (hd.set 0 (Or.inr (by omega))) hdir ?_ (by omega)
    rw [Nat.zero_add]
    exact set_self ..
  · refine cstring_eq (hf.set 0 (Or.inl (by omega))) hfile ?_ (by omega)
    rw [set_of_ne _ _ (by omega)]
    exact hnull

theorem text_cut_ne (hdir : ∀ c ∈ dir, c ≠ 0) (hfile : ∀ c ∈ file, c ≠ 0) (hslash : 47 ∉ file)
    (hlen : (dir ++ 47 :: file).length < 298) {i : Nat}
    (hi : path.splice 0 (dir ++ 47 :: file ++ [0]) i = 47) (hne : i ≠ dir.length) :
    (text ((path.splice 0 (dir ++ 47 :: file ++ [0])).set i 0) 0).length ≠ dir.length := by
  rcases Nat.lt_or_ge i dir.length with hlt | hge
  · have := length_text_set (path.splice 0 (dir ++ 47 :: file ++ [0])) i
    omega
  · have hbehind : dir.length + 1 + file.length < i := by
      by_contra hle
      exact newPath_ne_slash hslash (by omega) (by omega) hi
    have hhas := (has_append.mp (slice_splice_self path 0 (dir ++ 47 :: file ++ [0]))).1
    have hnull := (newPath_get path dir file).2.2.2
    have hplen : (dir ++ 47 :: file).length = dir.length + 1 + file.length := by
      rw [List.length_append, List.length_cons]
      omega
    have hwhole : text ((path.splice 0 (dir ++ 47 :: file ++ [0])).set i 0) 0 = dir ++ 47 :: file := by
      refine cstring_eq (hhas.set 0 (Or.inr (by omega))) ?_ ?_ (by omega)
      · intro c hc
        rcases List.mem_append.mp hc with hc | hc
        · exact hdir c hc
        · rcases List.mem_cons.mp hc with rfl | hc
          · decide
          · exact hfile c hc
      · rw [Nat.zero_add, hplen, set_of_ne _ _ (by omega)]
        exact hnull
    rw [hwhole]
    omega

end Cut

/-! ## Known ports -/

/-- The call is made only with known ports. -/
def Rpc.UsesPorts : Rpc → Prop
  | .mount | .lookup | .read | .readlink => True
  | .mountPort | .nfsPort | .umountall _ => False

def Client.Ported (c : Client) : Prop := c.statics.nfsPort ≠ -1 ∧ c.statics.mountPort ≠ -1

def PortInv (c : Client) : Prop := c.status = .waiting → c.rpc.UsesPorts → c.Ported

section Ports

variable {c : Client}

theorem begin_portInv {rpc : Rpc} (h : rpc.UsesPorts → c.Ported) : PortInv (c.begin rpc) := fun _ => h

theorem return_portInv (rc : Int) : PortInv (c.return_ rc) := fun h => by cases h

theorem umountall_portInv (rc : Int) : PortInv (c.umountall rc) := by
  rw [umountall]
  split
  · exact return_portInv rc
  · exact begin_portInv False.elim

theorem havePorts_portInv : PortInv c.havePorts := by
  rw [havePorts]
  split
  · exact return_portInv 0
  · next hports => exact begin_portInv (fun _ => not_or.mp hports)

theorem needNfsPort_portInv : PortInv c.needNfsPort := by
  rw [needNfsPort]
  split
  · exact begin_portInv False.elim
  · exact havePorts_portInv

theorem nfssymlink_portInv : PortInv c.nfssymlink := by
  rw [nfssymlink]
  split
  · exact return_portInv 0
  · split
    · exact return_portInv 0
    · rw [needMountPort]
      split
      · exact begin_portInv False.elim
      · exact needNfsPort_portInv

theorem onBlock_portInv (h : c.Ported) (p : Packet) (rc : Int) : PortInv (c.onBlock p rc) := by
  simp only [onBlock]
  split
  · exact umountall_portInv rc
  · simp only [advance]
    split_ifs
    all_goals first | exact begin_portInv (fun _ => h) | exact return_portInv 1

theorem onError_portInv (h : c.rpc.UsesPorts → c.Ported) (err : Int) : PortInv (c.onError err) := by
  rw [onError]
  split
  · exact needNfsPort_portInv
  · exact havePorts_portInv
  · exact umountall_portInv 0
  · exact umountall_portInv 0
  · exact umountall_portInv 0
  · next hrpc =>
    split
    · exact begin_portInv (fun _ => h (by rw [hrpc]; trivial))
    · exact umountall_portInv 0
  · exact return_portInv _

theorem mounted_ported (h : c.Ported) (p : Packet) : (c.mounted p).Ported := by
  rw [mounted]
  split <;> exact h

theorem onReply_portInv (h : c.rpc.UsesPorts → c.Ported) (p : Packet) (rc : Int) :
    PortInv (c.onReply p rc) := by
  rw [onReply]
  split
  · exact onError_portInv h _
  · exact onError_portInv h _
  · next hrpc =>
    have hports := mounted_ported (h (by rw [hrpc]; trivial)) p
    split
    · exact onError_portInv (fun _ => hports) _
    · exact begin_portInv (fun _ => hports)
  · next hrpc =>
    have hports : (c.lookedUp p).Ported := by
      rw [lookedUp]
      split <;> exact h (by rw [hrpc]; trivial)
    split
    · exact onError_portInv (fun _ => hports) _
    · exact begin_portInv (fun _ => hports)
  · next hrpc =>
    split
    · exact onError_portInv h _
    · exact onBlock_portInv (h (by rw [hrpc]; trivial)) p rc
  · next hrpc =>
    split
    · next hres =>
      rw [c.linkRead_of_result hres]
      exact onError_portInv h _
    · exact nfssymlink_portInv
  · exact return_portInv _

theorem PortInv.step (h : PortInv c) (e : Event) : PortInv (c.step e) := by
  rw [Client.step]
  split
  · next hst =>
    cases e with
    | timeout =>
      simp only [turn, onTimeout]
      split
      · exact h
      · exact onError_portInv (c := { c with retries := c.retries + 1, exhausted := true }) (h hst) _
    | packet p rc =>
      rw [turn]
      split
      · exact onReply_portInv (h hst) p rc
      · exact h
  · exact h

end Ports

/-! ## Links along a download -/

/-- The path that the link in a reply stands for. -/
def newPath (c : Client) (p : Packet) : List UInt8 := resolve (text c.dirname 0) (linkText p)

/-- With the event the text of a link arrives. It is one of the first 16 links, and the path it stands for
    is short. -/
structure LinkArrives (c : Client) (e : Event) (p : Packet) : Prop where
  takes : c.TakesLink e p
  ok : p.Succeeded
  depth : c.recursion ≤ maxLinkDepth
  short : (newPath c p).length < 298

/-- The next round mounts the directory `dir` and looks up `file`. -/
structure MountsAndLooksUp (c : Client) (id : Nat) (dir file : List UInt8) : Prop where
  status : c.status = .waiting
  rpc : c.rpc = .mount
  mount : c.call = mountCall id c.cfg.hostname dir
  lookup : ∀ (q : Packet) (rc : Int), q.result = 0 → (c.onReply q rc).rpc = .lookup ∧
    (c.onReply q rc).call = lookupCall c.statics.rpcId c.cfg.hostname (c.mounted q).dirfh file

/-- The link is followed: the path is the one it stands for, and the next round uses the parts of it before
    and behind its last slash. -/
structure Followed (c : Client) (e : Event) (p : Packet) : Prop where
  resolved : text (c.linkRead p).dirname 0 = newPath c p
  cut : ∀ dir file, newPath c p = dir ++ 47 :: file → 47 ∉ file →
    MountsAndLooksUp (c.step e) c.statics.rpcId dir file

/-- The condition: the text is read rightly, the last slash of the new path lies within the length of the
    first file name, and there is no other slash within that length behind the new path. -/
structure LinkFits (c : Client) (p : Packet) : Prop where
  text : TextRead (text c.dirname 0) p
  slash : ∀ dir file, newPath c p = dir ++ 47 :: file → 47 ∉ file → dir.length < c.namelen
  rest : ∀ k, (newPath c p).length < k → k < c.namelen → c.dirname k ≠ 47

variable {c : Client}

theorem step_of_takesLink {e : Event} {p : Packet} (h : c.TakesLink e p) :
    c.step e = (c.linkRead p).nfssymlink := by
  obtain ⟨hst, hrpc, ⟨rc, rfl⟩, hawait, hres⟩ := h
  rw [step, if_pos hst, turn, if_pos hawait, onReply]
  simp only [hrpc]
  rw [if_neg (not_not.mpr hres)]

theorem exists_split {path : List UInt8} (h : 47 ∈ path) :
    ∃ dir file, path = dir ++ 47 :: file ∧ 47 ∉ file := by
  obtain ⟨xs, ys, hxs, hnot⟩ := List.eq_append_cons_of_mem (List.mem_reverse.mpr h)
  refine ⟨ys.reverse, xs.reverse, ?_, fun hmem => hnot (List.mem_reverse.mp hmem)⟩
  have hpath := congrArg List.reverse hxs
  rw [List.reverse_reverse, List.reverse_append, List.reverse_cons, List.append_assoc] at hpath
  exact hpath

theorem slash_mem_resolve (dir link : List UInt8) : 47 ∈ resolve dir link := by
  rw [resolve]
  split
  · next habs => exact List.mem_of_mem_head? habs
  · exact List.mem_append_right _ (List.mem_cons_self ..)

theorem head_text {s : Store} {p : Nat} (h : s p ≠ 0) : (text s p).head? = some (s p) := by
  rw [text, show 2 ^ 32 = 4294967295 + 1 from rfl, cstring, if_neg h, List.head?_cons]

/-- An absolute link is read as one. -/
theorem LinkArrives.fits {e : Event} {p : Packet} (h : LinkArrives c e p) :
    Fits (text c.dirname 0) (text p.body (dataOffset 2)) := by
  have hshort := h.short
  rw [newPath, resolve] at hshort
  split at hshort
  · next habs =>
    have hfirst : p.body (dataOffset 2) = 47 := by
      rw [linkText, slice, List.head?_map, List.head?_range] at habs
      split at habs
      · cases habs
      · exact Option.some.inj habs
    left
    rw [head_text (by rw [hfirst]; decide), hfirst]
  · rw [List.length_append, List.length_cons] at hshort
    exact Or.inr (by omega)

/-- The next round, if the ports are known and the path is cut at `i`. -/
theorem nfssymlink_mounts (hdepth : c.recursion ≤ maxLinkDepth) (hports : c.Ported) {i : Nat}
    (hslash : lastSlash c.dirname c.namelen = some i) :
    c.nfssymlink = { c with
      recursion := c.recursion + 1, dirname := c.dirname.set i 0, fname := i + 1 }.begin .mount := by
  rw [nfssymlink, if_neg (Nat.not_lt.mpr hdepth), hslash]
  simp only [needMountPort, needNfsPort, havePorts]
  rw [if_neg hports.2, if_neg hports.1, if_neg (not_or.mpr hports)]

theorem xdrString_inj {xs ys : List UInt8} (hx : xs.length < 2 ^ 32) (hy : ys.length < 2 ^ 32)
    (h : xdrString xs = xdrString ys) : xs.length = ys.length :=
  be32Bytes_inj hx hy (List.append_inj h rfl).1

theorem onReply_mount (hrpc : c.rpc = .mount) {q : Packet} (hq : q.result = 0) (rc : Int) :
    (c.onReply q rc).rpc = .lookup ∧
      (c.onReply q rc).call =
        lookupCall c.statics.rpcId c.cfg.hostname (c.mounted q).dirfh (text c.dirname c.fname) := by
  rw [onReply]
  simp only [hrpc]
  rw [if_neg (not_not.mpr hq)]
  refine ⟨rfl, ?_⟩
  rw [mounted]
  split <;> rfl

section Round

variable {c : Client} {path : Store} {dir file : List UInt8}

/-- **The next round** uses the two parts of a path exactly if its last slash is found. -/
theorem mountsAndLooksUp_iff (hst : c.status = .waiting) (hdepth : c.recursion ≤ maxLinkDepth)
    (hports : c.Ported) (hpath : c.dirname = path.splice 0 (dir ++ 47 :: file ++ [0]))
    (hne : ∀ b ∈ dir ++ 47 :: file, b ≠ 0) (hlen : (dir ++ 47 :: file).length < 298) (hfile : 47 ∉ file) :
    MountsAndLooksUp c.nfssymlink c.statics.rpcId dir file ↔
      lastSlash c.dirname c.namelen = some dir.length := by
  have hdne : ∀ b ∈ dir, b ≠ 0 := fun b hb => hne b (List.mem_append_left _ hb)
  have hfne : ∀ b ∈ file, b ≠ 0 := fun b hb => hne b (List.mem_append_right _ (List.mem_cons_of_mem _ hb))
  constructor
  · intro h
    cases hslash : lastSlash c.dirname c.namelen with
    | none =>
      have hstatus := h.status
      rw [nfssymlink, if_neg (Nat.not_lt.mpr hdepth), hslash] at hstatus
      cases hstatus
    | some i =>
      have hmount := h.mount
      rw [nfssymlink_mounts hdepth hports hslash] at hmount
      have hargs : xdrString (text (c.dirname.set i 0) 0) = xdrString dir := congrArg Call.args hmount
      have hi := (lastSlash_eq_some.mp hslash).2.1
      rw [hpath] at hi hargs
      have hbound : (text ((path.splice 0 (dir ++ 47 :: file ++ [0])).set i 0) 0).length ≤
          dir.length + 1 + file.length := by
        refine length_cstring_le ?_
        rw [Nat.zero_add, Store.set]
        split
        · rfl
        · exact (newPath_get path dir file).2.2.2
      rw [List.length_append, List.length_cons] at hlen
      have hsame := xdrString_inj (by omega) (by omega) hargs
      by_contra hno
      have hdiff : i ≠ dir.length := fun heq => hno (congrArg some heq)
      refine text_cut_ne hdne hfne hfile ?_ hi hdiff hsame
      rw [List.length_append, List.length_cons]
      exact hlen
  · intro hslash
    obtain ⟨htextDir, htextFile⟩ := @text_cut path dir file hdne hfne hlen
    rw [nfssymlink_mounts hdepth hports hslash]
    refine ⟨hst, rfl, ?_, fun q rc hq => ?_⟩
    · show mountCall _ _ (text (c.dirname.set dir.length 0) 0) = _
      rw [hpath, htextDir]
      rfl
    · have hlookup := onReply_mount (c := { c with
        recursion := c.recursion + 1, dirname := c.dirname.set dir.length 0,
        fname := dir.length + 1 }.begin .mount) rfl hq rc
      refine ⟨hlookup.1, hlookup.2.trans ?_⟩
      show lookupCall _ _ _ (text (c.dirname.set dir.length 0) (dir.length + 1)) = _
      rw [hpath, htextFile]

end Round

theorem followed_iff {c : Client} (hports : PortInv c) {e : Event} {p : Packet} (h : LinkArrives c e p) :
    Followed c e p ↔ LinkFits c p := by
  obtain ⟨hst, hrpc, -⟩ := h.takes
  have hported : c.Ported := hports hst (by rw [hrpc]; trivial)
  have hdir : ∀ b ∈ text c.dirname 0, b ≠ 0 := (cstring_spec c.dirname (2 ^ 32) 0).2.1
  have hread : c.linkRead p = { c with dirname := followLink c.dirname (text p.body (dataOffset 2)) } :=
    if_pos h.ok
  have hresolved : text (c.linkRead p).dirname 0 = newPath c p ↔ TextRead (text c.dirname 0) p := by
    rw [hread, text_followLink _ _ _ h.fits, newPath, written_eq_iff hdir h.short]
  -- the next round, once the path is right
  have hround (htext : TextRead (text c.dirname 0) p) {dir file : List UInt8}
      (hsplit : newPath c p = dir ++ 47 :: file) (hfile : 47 ∉ file) :
      MountsAndLooksUp (c.step e) c.statics.rpcId dir file ↔
        dir.length < c.namelen ∧ ∀ k, (newPath c p).length < k → k < c.namelen → c.dirname k ≠ 47 := by
    have hwritten : written (text c.dirname 0) (text p.body (dataOffset 2)) = newPath c p :=
      (written_eq_iff hdir h.short).mpr htext
    have hne : ∀ b ∈ newPath c p, b ≠ 0 := by
      rw [← hwritten]
      exact written_ne_zero hdir (cstring_spec p.body (2 ^ 32) _).2.1
    have hpath : (c.linkRead p).dirname = c.dirname.splice 0 (dir ++ 47 :: file ++ [0]) := by
      rw [hread]
      rw [followLink_eq, hwritten, hsplit]
    have hlen := h.short
    rw [hsplit] at hne hlen ⊢
    rw [step_of_takesLink h.takes, ← lastSlash_newPath hfile, ← hpath]
    have hsame := mountsAndLooksUp_iff (c := c.linkRead p) (by rw [hread]; exact hst)
      (by rw [hread]; exact h.depth) (by rw [hread]; exact hported) hpath hne hlen hfile
    rw [hread] at hsame ⊢
    exact hsame
  constructor
  · intro hf
    have htext := hresolved.mp hf.resolved
    refine ⟨htext, fun dir file hsplit hfile => ?_, ?_⟩
    · exact ((hround htext hsplit hfile).mp (hf.cut dir file hsplit hfile)).1
    · obtain ⟨dir, file, hsplit, hfile⟩ := exists_split (slash_mem_resolve (text c.dirname 0) (linkText p))
      exact ((hround htext hsplit hfile).mp (hf.cut dir file hsplit hfile)).2
  · intro hf
    refine ⟨hresolved.mpr hf.text, fun dir file hsplit hfile => ?_⟩
    exact (hround hf.text hsplit hfile).mpr ⟨hf.slash dir file hsplit hfile, hf.rest⟩

/-- **Links are followed** in a download exactly as far as they fit. -/
theorem links_followed_iff (cfg : Config) (statics : Statics) (name : List UInt8) (stack : Store)
    (es : List Event) :
    AllSteps Client.step (fun c e => ∀ p, LinkArrives c e p → Followed c e p)
        (Client.start cfg statics name stack) es ↔
      AllSteps Client.step (fun c e => ∀ p, LinkArrives c e p → LinkFits c p)
        (Client.start cfg statics name stack) es := by
  refine allSteps_iff PortInv (fun c e hc => ?_) (fun c e hc _ => hc.step e) nfssymlink_portInv es
  exact forall_congr' (fun p => imp_congr_right (fun h => followed_iff hc h))

/-- A reply to the call `id`. -/
def answerTo (id status : Nat) (more : List UInt8) : Packet :=
  ⟨1, 700, 100, Store.splice (fun _ => 0) 0 (words [id, msgReply, 0, 0, 0, 0, status] ++ more)⟩

/-- The file `/a/b` is a link to `/long/file`. -/
def linkAnswer : Packet :=
  answerTo 4 0 (words [10] ++ [47, 108, 111, 110, 103, 47, 102, 105, 108, 101])

def linkStart : Client := Client.start ⟨1, 2, []⟩ ⟨700, 635, 2049, false, 1⟩ [47, 97, 47, 98] (fun _ => 0)

/-- After mount, lookup and a read that fails. -/
def linkState : Client :=
  ((linkStart.step (.packet (answerTo 1 0 []) 1)).step (.packet (answerTo 2 0 []) 1)).step
    (.packet (answerTo 3 21 []) 1)

theorem linkAnswer_arrives : LinkArrives linkState (.packet linkAnswer 1) linkAnswer :=
  ⟨⟨by decide +kernel, by decide +kernel, ⟨1, rfl⟩, by decide +kernel, by decide +kernel⟩,
    by decide +kernel, by decide +kernel, by decide +kernel⟩

theorem long_link_cut_wrongly :
    ¬ AllSteps Client.step (fun c e => ∀ p, LinkArrives c e p → Followed c e p) linkStart
      [.packet (answerTo 1 0 []) 1, .packet (answerTo 2 0 []) 1, .packet (answerTo 3 21 []) 1,
        .packet linkAnswer 1] := by
  rintro ⟨-, -, -, hfollowed, -⟩
  have hports : PortInv linkState := ((PortInv.step nfssymlink_portInv _).step _).step _
  have hfits := (followed_iff hports linkAnswer_arrives).mp (hfollowed linkAnswer linkAnswer_arrives)
  have hslash := hfits.slash [47, 108, 111, 110, 103] [102, 105, 108, 101] (by decide +kernel)
    (by decide +kernel)
  exact absurd hslash (by decide +kernel)

end Nfs
