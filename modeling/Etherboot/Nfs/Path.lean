import Etherboot.Nfs.Client

set_option autoImplicit false

/-! # The path during a download

`dirname` holds the path, cut into directory and file by a null in the place of a slash. `step_place` says
once what a step of the client can do to the path and the two handles: most steps leave them alone, two
replies bring a handle, and only a link changes the path. -/

namespace Nfs

open Memory

/-! ## Texts and slashes -/

section Texts

variable {s : Store} {n p k i : Nat}

theorem length_cstring_le (h : s (p + k) = 0) : (cstring s n p).length ≤ k := by
  induction k generalizing n p with
  | zero =>
    cases n with
    | zero => exact Nat.le_refl 0
    | succ n =>
      have hp : s p = 0 := h
      rw [cstring, if_pos hp]
      exact Nat.le_refl 0
  | succ k ih =>
    cases n with
    | zero => exact Nat.zero_le _
    | succ n =>
      rw [cstring]
      split
      · exact Nat.zero_le _
      · exact Nat.succ_le_succ (ih (by rw [Nat.add_right_comm]; exact h))

theorem cstring_eq {bs : List UInt8} (hbs : s.Has p bs) (hne : ∀ c ∈ bs, c ≠ 0)
    (hnull : s (p + bs.length) = 0) (hn : bs.length < n) : cstring s n p = bs := by
  induction bs generalizing n p with
  | nil =>
    obtain ⟨n, rfl⟩ : ∃ m, n = m + 1 := Nat.exists_eq_succ_of_ne_zero (by omega)
    have hp : s p = 0 := hnull
    rw [cstring, if_pos hp]
  | cons c bs ih =>
    obtain ⟨n, rfl⟩ : ∃ m, n = m + 1 := Nat.exists_eq_succ_of_ne_zero (by omega)
    obtain ⟨hc, hrest⟩ := Store.has_cons.mp hbs
    have hc0 : s p ≠ 0 := hc.symm ▸ hne c (List.mem_cons_self ..)
    have htail := ih hrest (fun d hd => hne d (List.mem_cons_of_mem c hd))
      (by rw [Nat.add_right_comm]; exact hnull) (Nat.lt_of_succ_lt_succ hn)
    rw [cstring, if_neg hc0, htail, hc]

/-- What is read is there, without nulls, and ends at a null unless it is as long as it may be. -/
theorem cstring_spec (s : Store) (n p : Nat) :
    s.Has p (cstring s n p) ∧ (∀ c ∈ cstring s n p, c ≠ 0) ∧
      ((cstring s n p).length < n → s (p + (cstring s n p).length) = 0) := by
  induction n generalizing p with
  | zero => exact ⟨rfl, fun c hc => absurd hc (List.not_mem_nil), fun h => absurd h (Nat.not_lt_zero _)⟩
  | succ n ih =>
    rw [cstring]
    split
    · next hnull => exact ⟨rfl, fun c hc => absurd hc (List.not_mem_nil), fun _ => hnull⟩
    · next hc =>
      obtain ⟨hhas, hne, hnull⟩ := ih (p + 1)
      refine ⟨Store.has_cons.mpr ⟨rfl, hhas⟩, ?_, fun hlt => ?_⟩
      · rintro d (_ | ⟨_, hd⟩)
        · exact hc
        · exact hne d hd
      · rw [List.length_cons] at hlt ⊢
        rw [← Nat.add_assoc, Nat.add_right_comm]
        exact hnull (Nat.lt_of_succ_lt_succ hlt)

theorem lastSlash_eq_some : lastSlash s n = some i ↔ i < n ∧ s i = 47 ∧ ∀ j, i < j → j < n → s j ≠ 47 := by
  induction n with
  | zero =>
    simp only [lastSlash, Nat.not_lt_zero, false_and, iff_false]
    exact Option.some_ne_none i ∘ Eq.symm
  | succ n ih =>
    rw [lastSlash]
    split
    · next hslash =>
      rw [Option.some.injEq]
      constructor
      · rintro rfl
        exact ⟨Nat.lt_succ_self n, hslash, fun j hij hj => absurd hj (by omega)⟩
      · rintro ⟨hi, -, hlast⟩
        by_contra hne
        exact hlast n (by omega) (Nat.lt_succ_self n) hslash
    · next hslash =>
      rw [ih]
      constructor
      · rintro ⟨hi, hs, hlast⟩
        refine ⟨Nat.lt_succ_of_lt hi, hs, fun j hij hj => ?_⟩
        rcases Nat.lt_succ_iff_lt_or_eq.mp hj with hlt | rfl
        · exact hlast j hij hlt
        · exact hslash
      · rintro ⟨hi, hs, hlast⟩
        have hin : i ≠ n := fun heq => hslash (heq ▸ hs)
        exact ⟨by omega, hs, fun j hij hj => hlast j hij (Nat.lt_succ_of_lt hj)⟩

end Texts

/-! ## What a step does to the path -/

/-- The variables that say which file is read. -/
structure Place where
  cfg : Config
  namelen : Nat
  dirname : Store
  fname : Nat
  dirfh : List UInt8
  filefh : List UInt8

namespace Client

def place (c : Client) : Place := ⟨c.cfg, c.namelen, c.dirname, c.fname, c.dirfh, c.filefh⟩

variable (c : Client)

theorem place_begin (rpc : Rpc) : (c.begin rpc).place = c.place := rfl

theorem place_umountall (rc : Int) : (c.umountall rc).place = c.place := by
  rw [umountall]
  split <;> rfl

theorem place_havePorts : c.havePorts.place = c.place := by
  rw [havePorts]
  split <;> rfl

theorem place_needNfsPort : c.needNfsPort.place = c.place := by
  rw [needNfsPort]
  split
  · rfl
  · exact place_havePorts c

theorem place_needMountPort : c.needMountPort.place = c.place := by
  rw [needMountPort]
  split
  · rfl
  · exact place_needNfsPort c

theorem place_advance (rlen : Int) : (c.advance rlen).place = c.place := by
  simp only [advance]
  split_ifs <;> rfl

theorem place_onBlock (p : Packet) (rc : Int) : (c.onBlock p rc).place = c.place := by
  simp only [onBlock]
  split
  · exact place_umountall _ _
  · exact place_advance _ _

theorem place_onError (err : Int) : (c.onError err).place = c.place := by
  rw [onError]
  split
  · exact place_needNfsPort _
  · exact place_havePorts _
  · exact place_umountall _ _
  · exact place_umountall _ _
  · exact place_umountall _ _
  · split
    · rfl
    · exact place_umountall _ _
  · rfl

theorem place_onTimeout : c.onTimeout.place = c.place := by
  simp only [onTimeout]
  split
  · rfl
  · exact place_onError _ _

theorem place_mounted (p : Packet) : ∃ fh, (fh = c.dirfh ∨ fh.length = fhSize) ∧
    (c.mounted p).place = { c.place with dirfh := fh } := by
  rw [mounted]
  split
  · exact ⟨_, Or.inr (Store.length_slice ..), rfl⟩
  · exact ⟨_, Or.inl rfl, rfl⟩

theorem place_lookedUp (p : Packet) : ∃ fh, (fh = c.filefh ∨ fh.length = fhSize) ∧
    (c.lookedUp p).place = { c.place with filefh := fh } := by
  rw [lookedUp]
  split
  · exact ⟨_, Or.inr (Store.length_slice ..), rfl⟩
  · exact ⟨_, Or.inl rfl, rfl⟩

theorem nfssymlink_cases :
    (c.nfssymlink.place = c.place ∧ c.nfssymlink.status ≠ .waiting) ∨
      ∃ i, lastSlash c.dirname c.namelen = some i ∧
        c.nfssymlink.place = { c.place with dirname := c.dirname.set i 0, fname := i + 1 } := by
  rw [nfssymlink]
  split
  · exact Or.inl ⟨rfl, by rw [return_]; simp⟩
  · cases hslash : lastSlash c.dirname c.namelen with
    | none => exact Or.inl ⟨rfl, by simp [return_]⟩
    | some i => exact Or.inr ⟨i, rfl, place_needMountPort _⟩

theorem linkRead_of_result {p : Packet} (h : p.result ≠ 0) : c.linkRead p = c := by
  rw [linkRead, if_neg]
  intro hok
  exact h (if_pos hok)

/-- The reply that a link's text is taken from. -/
def TakesLink (c : Client) (e : Event) (p : Packet) : Prop :=
  c.status = .waiting ∧ c.rpc = .readlink ∧ (∃ rc, e = .packet p rc) ∧
    p.awaitRpc c.cfg.clientIp (c.source c.rpc) c.call.id = true ∧ p.result = 0

/-- **What a step does to the path.** -/
theorem step_place (e : Event) :
    (∃ d f, (d = c.dirfh ∨ d.length = fhSize) ∧ (f = c.filefh ∨ f.length = fhSize) ∧
      (c.step e).place = { c.place with dirfh := d, filefh := f } ∧
      ((c.step e).status = .waiting → c.status = .waiting)) ∨
    ∃ p, c.TakesLink e p ∧ c.step e = (c.linkRead p).nfssymlink := by
  rw [step]
  split
  swap
  · next hst => exact Or.inl ⟨_, _, Or.inl rfl, Or.inl rfl, rfl, fun h => h⟩
  next hst =>
  have same {c' : Client} (h : c'.place = c.place) : ∃ d f, (d = c.dirfh ∨ d.length = fhSize) ∧
      (f = c.filefh ∨ f.length = fhSize) ∧ c'.place = { c.place with dirfh := d, filefh := f } ∧
      (c'.status = .waiting → c.status = .waiting) :=
    ⟨_, _, Or.inl rfl, Or.inl rfl, h, fun _ => hst⟩
  cases e with
  | timeout => exact Or.inl (same (place_onTimeout c))
  | packet p rc =>
    rw [turn]
    split
    swap
    · exact Or.inl (same rfl)
    next hawait =>
    rw [onReply]
    split
    · exact Or.inl (same (place_onError c _))
    · exact Or.inl (same (place_onError c _))
    · obtain ⟨fh, hfh, hplace⟩ := place_mounted c p
      refine Or.inl ⟨fh, _, hfh, Or.inl rfl, ?_, fun _ => hst⟩
      split
      · rw [place_onError, hplace]
        rfl
      · rw [place_begin, hplace]
        rfl
    · obtain ⟨fh, hfh, hplace⟩ := place_lookedUp c p
      refine Or.inl ⟨_, fh, Or.inl rfl, hfh, ?_, fun _ => hst⟩
      split
      · rw [place_onError, hplace]
        rfl
      · exact hplace
    · split
      · exact Or.inl (same (place_onError c _))
      · exact Or.inl (same (place_onBlock c p rc))
    · next hrpc =>
      split
      · next hres =>
        rw [linkRead_of_result c hres]
        exact Or.inl (same (place_onError c _))
      · next hres => exact Or.inr ⟨p, ⟨hst, hrpc, ⟨rc, rfl⟩, hawait, not_not.mp hres⟩, rfl⟩
    · exact Or.inl (same rfl)

end Client

/-! ## Along a run -/

/-- The handles have their size, and while the download goes on the path is cut somewhere in the length of
    the file name it began with. -/
structure PathInv (n : Nat) (c : Client) : Prop where
  namelen : c.namelen = n
  dirfh : c.dirfh.length = fhSize
  filefh : c.filefh.length = fhSize
  cut : c.status = .waiting → (text c.dirname 0).length < n

theorem length_text_set (s : Store) (i : Nat) : (text (s.set i 0) 0).length ≤ i :=
  length_cstring_le (by rw [Nat.zero_add]; exact Store.set_self s i 0)

section Inv

variable {n : Nat} {c c' : Client}

theorem PathInv.congr (h : PathInv n c) {d f : List UInt8} (hd : d = c.dirfh ∨ d.length = fhSize)
    (hf : f = c.filefh ∨ f.length = fhSize) (hplace : c'.place = { c.place with dirfh := d, filefh := f })
    (hst : c'.status = .waiting → c.status = .waiting) : PathInv n c' := by
  have hdirname : c'.dirname = c.dirname := congrArg Place.dirname hplace
  have hdirfh : c'.dirfh = d := congrArg Place.dirfh hplace
  have hfilefh : c'.filefh = f := congrArg Place.filefh hplace
  have hnamelen : c'.namelen = c.namelen := congrArg Place.namelen hplace
  refine ⟨hnamelen.trans h.namelen, ?_, ?_, fun hw => ?_⟩
  · rw [hdirfh]
    exact hd.elim (fun heq => heq ▸ h.dirfh) id
  · rw [hfilefh]
    exact hf.elim (fun heq => heq ▸ h.filefh) id
  · rw [hdirname]
    exact h.cut (hst hw)

theorem nfssymlink_pathInv (hn : c.namelen = n) (hd : c.dirfh.length = fhSize)
    (hf : c.filefh.length = fhSize) : PathInv n c.nfssymlink := by
  rcases c.nfssymlink_cases with ⟨hplace, hst⟩ | ⟨i, hslash, hplace⟩
  · exact ⟨(congrArg Place.namelen hplace).trans hn, (congrArg (·.dirfh.length) hplace).trans hd,
      (congrArg (·.filefh.length) hplace).trans hf, fun hw => absurd hw hst⟩
  · have hdirname : c.nfssymlink.dirname = c.dirname.set i 0 := congrArg Place.dirname hplace
    refine ⟨(congrArg Place.namelen hplace).trans hn, (congrArg (·.dirfh.length) hplace).trans hd,
      (congrArg (·.filefh.length) hplace).trans hf, fun _ => ?_⟩
    rw [hdirname]
    have hi := (lastSlash_eq_some.mp hslash).1
    have hlen := length_text_set c.dirname i
    omega

theorem PathInv.step (h : PathInv n c) (e : Event) : PathInv n (c.step e) := by
  rcases c.step_place e with ⟨d, f, hd, hf, hplace, hst⟩ | ⟨p, -, hstep⟩
  · exact h.congr hd hf hplace hst
  · rw [hstep]
    refine nfssymlink_pathInv ?_ ?_ ?_ <;> rw [Client.linkRead] <;> split
    · exact h.namelen
    · exact h.namelen
    · exact h.dirfh
    · exact h.dirfh
    · exact h.filefh
    · exact h.filefh

theorem start_pathInv (cfg : Config) (statics : Statics) (name : List UInt8) (stack : Store) :
    PathInv name.length (Client.start cfg statics name stack) :=
  nfssymlink_pathInv rfl (Store.length_slice ..) (Store.length_slice ..)

end Inv

end Nfs
