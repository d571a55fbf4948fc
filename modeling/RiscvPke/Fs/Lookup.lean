/-
Path lookup on the RAM disk.
-/
import RiscvPke.Fs.Inodes

namespace RiscvPke.Fs

open Function CData RiscvPke.Count Run RiscvPke.System

variable {D : Debts} {a a' : Afs} {n m v w d p up : ℕ} {V W : Vinode} {De : Dentry} {E : Fault → Prop}

/-! ## Locations -/

abbrev Loc := List (CString × ℕ)

variable {l : Loc}

def Afs.place (a : Afs) : (fuel d : ℕ) → Option Loc
  | 0, _ => none
  | fuel + 1, d =>
    if d = a.vfs_root_dentry then some []
    else do
      let D ← a.dentries d
      let V ← a.vinodes (← D.dentry_inode)
      return (D.name, V.inum.toNat) :: (← a.place fuel (← D.parent))

def Afs.loc (a : Afs) (d : ℕ) : Option Loc := a.place (d + 1) d

theorem loc_root : a.loc a.vfs_root_dentry = some [] := if_pos rfl

theorem place_succ {k : ℕ} (hd : d ≠ a.vfs_root_dentry) : a.place (k + 1) d = some l ↔
    ∃ De v V up l', a.dentries d = some De ∧ De.dentry_inode = some v ∧ a.vinodes v = some V ∧ De.parent = some up ∧
      a.place k up = some l' ∧ l = (De.name, V.inum.toNat) :: l' := by
  rw [Afs.place, if_neg hd]
  constructor
  · intro h
    obtain ⟨De, hDe, h⟩ := Option.bind_eq_some_iff.1 h
    obtain ⟨v, hv, h⟩ := Option.bind_eq_some_iff.1 h
    obtain ⟨V, hV, h⟩ := Option.bind_eq_some_iff.1 h
    obtain ⟨up, hup, h⟩ := Option.bind_eq_some_iff.1 h
    obtain ⟨l', hl', h⟩ := Option.bind_eq_some_iff.1 h
    grind
  · intro ⟨De, v, V, up, l', hDe, hv, hV, hup, hl', he⟩
    simp [hDe, hv, hV, hup, hl', he]

theorem place_mono {k k' : ℕ} (hk : k ≤ k') (h : a.place k d = some l) : a.place k' d = some l := by
  induction k generalizing k' d l with
  | zero => cases h
  | succ k ih =>
    obtain ⟨k', rfl⟩ : ∃ j, k' = j + 1 := ⟨k' - 1, by omega⟩
    grind [Afs.place, place_succ]

theorem loc_child (hd : d ≠ a.vfs_root_dentry) (hDe : a.dentries d = some De) (hv : De.dentry_inode = some v)
    (hV : a.vinodes v = some V) (hn : V.inum = n) (hup : De.parent = some up) (hlt : up < d) (hl : a.loc up = some l) :
    a.loc d = some ((De.name, n) :: l) := by
  refine (place_succ hd).2 ⟨De, v, V, up, l, hDe, hv, hV, hup, place_mono (by omega) hl, ?_⟩
  rw [hn, Int.toNat_natCast]

theorem Inv.ne_root (h : Inv D a) (hN : Node D a d v V) : d ≠ a.vfs_root_dentry := by
  rintro rfl
  obtain ⟨De, hDe, -, -, w, W, hw, hW, hh, -⟩ := h.tree.root
  exact hN.not_host hDe hw hW hh

/-- what the location of a dentry in the hash table says -/
inductive Seat (D : Debts) (a : Afs) (d : ℕ) (De : Dentry) : Loc → Prop
  | root (hd : d = a.vfs_root_dentry) (hpar : De.parent = none) : Seat D a d De []
  | mount {v : ℕ} {V : Vinode} (hpar : De.parent = some a.vfs_root_dentry) (hname : De.name = ramdisk0)
    (hN : Node D a d v V)
      (hn : V.inum = 0) : Seat D a d De [(ramdisk0, 0)]
  | below {up v p n : ℕ} {V : Vinode} {name : CString} {l : Loc} (hpar : De.parent = some up)
      (hup : a.loc up = some ((name, p) :: l)) (hdir : DirAt D a up p) (hN : Node D a d v V) (hn : V.inum = n)
      (hfind : a.find p De.name = some (n : ℤ)) : Seat D a d De ((De.name, n) :: (name, p) :: l)

theorem Inv.seat (h : Inv D a) (hDe : a.dentries d = some De) (hst : d ∉ D.stray) :
    ∃ l, a.loc d = some l ∧ Seat D a d De l := by
  -- by induction on the dentry: its parent is older
  induction d using Nat.strong_induction_on generalizing De with
  | _ d ih =>
    obtain ⟨-, hplace⟩ := h.tree.placed d De hDe hst
    rcases hplace with ⟨rfl, hpar, -⟩ | ⟨up, v, V, hpar, hlt, hN, hplace⟩
    · exact ⟨[], loc_root, .root rfl hpar⟩
    · have hroot := h.ne_root hN
      have hv := hN.inode hDe
      obtain ⟨n, hn, -⟩ := h.cached hN.vinode hN.rfs hN.tight
      rcases hplace with ⟨rfl, hname, h0⟩ | ⟨-, p, hdir, hfind⟩
      · have hl := loc_child hroot hDe hv hN.vinode h0 hpar hlt loc_root
        rw [hname] at hl
        exact ⟨_, hl, .mount hpar hname hN h0⟩
      · obtain ⟨w, W, hNup, -, hp⟩ := id hdir
        obtain ⟨Up, hUp, hw⟩ := hNup.dentry
        obtain ⟨l, hl, hseat⟩ := ih up hlt hUp hNup.hashed
        have hcons : ∃ name l', l = (name, p) :: l' := by
          cases hseat with
          | root he => exact absurd he (h.ne_root hNup)
          | mount _ _ hX h0 =>
            rw [(hX.unique hNup).2] at h0
            exact ⟨_, [], by rw [show p = 0 by omega]⟩
          | @below _ _ _ k _ _ _ _ _ _ hX hx =>
            rw [(hX.unique hNup).2] at hx
            exact ⟨_, _, by rw [show p = k by omega]⟩
        obtain ⟨name, l', rfl⟩ := hcons
        rw [hn] at hfind
        exact ⟨_, loc_child hroot hDe hv hN.vinode hn hpar hlt hl, .below hpar hl hdir hN hn hfind⟩

variable {name : CString}

theorem Seat.node (h : Seat D a d De ((name, n) :: l)) : ∃ v V, Node D a d v V ∧ V.inum = n := by
  cases h with
  | mount _ _ hN hn => exact ⟨_, _, hN, hn⟩
  | below _ _ _ hN hn => exact ⟨_, _, hN, hn⟩

/-! ## What a lookup leaves in the caches -/

/-- only the caches have grown -/
structure Grows (a a' : Afs) : Prop where
  used : a'.used = a.used
  dinode : a'.dinode = a.dinode
  dir : a'.dir = a.dir
  pfiles : a'.pfiles = a.pfiles
  root : a'.vfs_root_dentry = a.vfs_root_dentry
  cur : a'.cur = a.cur
  next : a.next ≤ a'.next
  dentries : ∀ d De, a.dentries d = some De → a'.dentries d = some De
  vinodes : ∀ v V, a.vinodes v = some V → ∃ r, V.ref ≤ r ∧ a'.vinodes v = some { V with ref := r }
  dentry_hash : ∀ key d, a.dentry_hash key = some d → a'.dentry_hash key = some d
  vinode_hash : ∀ k v, a.vinode_hash k = some v → a'.vinode_hash k = some v

theorem Grows.refl (a : Afs) : Grows a a :=
  ⟨rfl, rfl, rfl, rfl, rfl, rfl, le_rfl, fun _ _ h => h, fun _ V h => ⟨V.ref, le_rfl, h⟩,
    fun _ _ h => h, fun _ _ h => h⟩

theorem Grows.trans {a'' : Afs} (h : Grows a a') (h' : Grows a' a'') : Grows a a'' where
  used := h'.used.trans h.used
  dinode := h'.dinode.trans h.dinode
  dir := h'.dir.trans h.dir
  pfiles := h'.pfiles.trans h.pfiles
  root := h'.root.trans h.root
  cur := h'.cur.trans h.cur
  next := h.next.trans h'.next
  dentries := fun d De hd => h'.dentries d De (h.dentries d De hd)
  vinodes := by
    intro v V hV
    obtain ⟨r, hr, hV'⟩ := h.vinodes v V hV
    obtain ⟨r', hr', hV''⟩ := h'.vinodes v _ hV'
    exact ⟨r', le_trans hr hr', hV''⟩
  dentry_hash := fun key d hk => h'.dentry_hash key d (h.dentry_hash key d hk)
  vinode_hash := fun k v hk => h'.vinode_hash k v (h.vinode_hash k v hk)

theorem Grows.place (h : Grows a a') {k : ℕ} (hl : a.place k d = some l) : a'.place k d = some l := by
  induction k generalizing d l with
  | zero => cases hl
  | succ k ih =>
    by_cases hd : d = a.vfs_root_dentry
    · rw [Afs.place, if_pos hd] at hl
      rw [Afs.place, if_pos (hd.trans h.root.symm)]
      exact hl
    · obtain ⟨De, v, V, up, l', hDe, hv, hV, hup, hl', he⟩ := (place_succ hd).1 hl
      obtain ⟨r, -, hV'⟩ := h.vinodes v V hV
      exact (place_succ (by rwa [h.root])).2 ⟨De, v, _, up, l', h.dentries d De hDe, hv, hV', hup, ih hl', he⟩

theorem Grows.loc (h : Grows a a') (hl : a.loc d = some l) : a'.loc d = some l := h.place hl

theorem Grows.node (h : Grows a a') (hN : Node D a d v V) : ∃ r, Node D a' d v { V with ref := r } := by
  obtain ⟨De, hDe, hv⟩ := hN.dentry
  obtain ⟨r, -, hV⟩ := h.vinodes v V hN.vinode
  exact ⟨r, ⟨De, h.dentries d De hDe, hv⟩, hN.hashed, hV, hN.rfs, hN.tight⟩

/-! ## New dentries -/

/-- between two calls: no vinode is outside the hash table, and what is not there yet has no debts -/
structure Tidy (D : Debts) (a : Afs) : Prop where
  inv : Inv D a
  stray : ∀ x ∈ D.stray, x < a.next
  loose : D.loose = ∅
  refs : ∀ v, a.next ≤ v → D.refs v = 0
  memory : ∀ n : ℕ, a.vinode_hash n = none → D.memory n = 0
  links : ∀ n, (a.dinode n).type ≠ FILE_I → D.links n = 0

theorem hash_ne {x k : ℕ} (hk : a.vinode_hash k = some v) (hx : a.vinode_hash x = none) : x ≠ k := by
  rintro rfl
  cases hk.symm.trans hx

theorem Tidy.tight (h : Tidy D a) : v ∉ D.loose := by
  rw [h.loose]
  exact id

theorem Tidy.grown (h : Tidy D a) (h' : Inv D a') (hg : Grows a a') : Tidy D a' where
  inv := h'
  stray := fun x hx => (h.stray x hx).trans_le hg.next
  loose := h.loose
  refs := fun v hv => h.refs v (hg.next.trans hv)
  memory := by
    intro n hn
    apply h.memory
    cases hk : a.vinode_hash n with
    | none => rfl
    | some v =>
      rw [hg.vinode_hash _ _ hk] at hn
      cases hn
  links := by
    rw [hg.dinode]
    exact h.links

theorem Tidy.unstray (h : Tidy D a) (hd : a.next ≤ d) : d ∉ D.stray := fun hm => by
  have := h.stray d hm
  omega

def Afs.hang (a : Afs) (d v : ℕ) (V : Vinode) (up : ℕ) (name : CString) (next : ℕ) : Afs :=
  { a with
    dentries := update a.dentries d (some ⟨name, 0, some v, some up⟩)
    next := next
    vinodes := update a.vinodes v (some { V with ref := V.ref + 1 })
    dentry_hash := update a.dentry_hash (some up, name) (some d) }

variable {next : ℕ}

theorem Inv.hang {S : Set ℕ} (h : Inv { D with stray := S } a)
    (hS : ∀ x, x ≠ d → (x ∈ S ↔ x ∈ D.stray)) (hDd : d ∉ D.stray) (hd : d ∈ S ∨ a.next ≤ d) (hV : a.vinodes v = some V)
    (hr : V.host = false) (ht : v ∉ D.loose) (hdir : DirAt { D with stray := S } a up p) (hup : up < d)
    (hfree : a.dentry_hash (some up, name) = none) (hfind : a.find p name = some V.inum) (hnext : a.next ≤ next)
    (hlt : d < next) :
    Inv D (a.hang d v V up name next) := by
  have hne : up ≠ a.vfs_root_dentry := by
    obtain ⟨w, W, hN, -⟩ := id hdir
    exact h.ne_root hN
  have h1 :=
    h.setStray (o := some ⟨name, 0, some v, some up⟩) (S := S ∪ {d}) hd (fun x hx => by simp [hx]) (.inr (.inr rfl))
    hnext hlt
  have h2 := h1.addRef (V := V) hV hr ht 1
  have h3 := h2.hashDentry (d := d) (V := { V with ref := V.ref + 1 }) (v := v) (p := p)
    (.inr rfl) (update_self _ _ _) hfree rfl hup hne ?_ rfl (update_self _ _ _) hr ht hfind
  · refine h3.debts ?_ rfl (fun _ _ => rfl) (fun _ _ _ _ _ _ _ _ => rfl) ?_
    · ext x
      by_cases hx : x = d
      · simp [hx, hDd]
      · simp [hx, hS x hx]
    · intro x X _ _ _
      by_cases hx : x = v
      · subst hx
        simp
      · simp [hx]
  · obtain ⟨w, W, hN, hWt, hp⟩ := hdir
    obtain ⟨De, hDe, hw⟩ := hN.dentry
    have hud : up ≠ d := by omega
    have hent : update a.dentries d (some ⟨name, 0, some v, some up⟩) up = some De :=
      (update_of_ne hud _ _).trans hDe
    have hst : up ∉ S ∪ {d} := by
      rintro (hm | hm)
      · exact hN.hashed hm
      · exact hud hm
    by_cases hwv : w = v
    · subst hwv
      cases hV.symm.trans hN.vinode
      exact ⟨w, _, ⟨⟨De, hent, hw⟩, hst, update_self _ _ _, hN.rfs, hN.tight⟩, hWt, hp⟩
    · exact ⟨w, W, ⟨⟨De, hent, hw⟩, hst, (update_of_ne hwv _ _).trans hN.vinode, hN.rfs, hN.tight⟩, hWt, hp⟩

def Afs.load (a : Afs) (f m next : ℕ) : Afs :=
  { a with
    vinodes := update a.vinodes f (some (loaded a m))
    next := next
    vinode_hash := update a.vinode_hash m (some f) }

variable {f : ℕ}

theorem Inv.load (h : Inv D a) (hf : a.next ≤ f) (hfl : f ∉ D.loose) (hlive : Live a m) (hfree : a.vinode_hash m = none)
    (hlt : f < next) :
    Inv { D with refs := update D.refs f 0, memory := update D.memory m 0 } (a.load f m next) := by
  have h1 := h.setLoose (v := f) (o := some (loaded a m)) (L := D.loose ∪ {f}) (.inr hf)
    (fun x hx => by simp [hx]) (.inr (.inr rfl)) (fun V hV => by rw [h.cache.fresh f hf] at hV; cases hV)
      (hf.trans hlt.le) hlt
  have h2 := h1.hashVinode (v := f) (V := loaded a m) (.inr rfl) (update_self _ _ _) rfl rfl rfl hlive hfree
  refine h2.debts rfl ?_ (fun _ _ => rfl) (fun _ _ _ _ _ _ _ _ => rfl) fun _ _ _ _ _ => rfl
  ext x
  by_cases hx : x = f
  · simp [hx, hfl]
  · simp [hx]

theorem grows_hang (hV : a.vinodes v = some V) (hd : a.dentries d = none)
    (hfree : a.dentry_hash (some up, name) = none) (hnext : a.next ≤ next) : Grows a (a.hang d v V up name next) where
  used := rfl
  dinode := rfl
  dir := rfl
  pfiles := rfl
  root := rfl
  cur := by
    funext m
    unfold Afs.cur Afs.hang
    cases hk : a.vinode_hash m with
    | none => rfl
    | some x =>
      by_cases hx : x = v
      · subst hx
        simp only [Option.bind_some, update_self, hV]
      · simp only [Option.bind_some, update_of_ne hx]
  next := hnext
  dentries := by
    intro x X hX
    have hx : x ≠ d := (ne_of_none hX hd).symm
    exact (update_of_ne hx _ _).trans hX
  vinodes := by
    intro x X hX
    by_cases hx : x = v
    · subst hx
      cases hV.symm.trans hX
      exact ⟨V.ref + 1, by omega, update_self _ _ _⟩
    · exact ⟨X.ref, le_rfl, (update_of_ne hx _ _).trans hX⟩
  dentry_hash := by
    intro key x hk
    have hne : key ≠ (some up, name) := (ne_of_none hk hfree).symm
    exact (update_of_ne hne _ _).trans hk
  vinode_hash := fun _ _ hk => hk

theorem grows_load (hf : a.vinodes f = none) (hunh : ∀ k, a.vinode_hash k ≠ some f) (hfree : a.vinode_hash m = none)
    (hnext : a.next ≤ next) :
    Grows a (a.load f m next) where
  used := rfl
  dinode := rfl
  dir := rfl
  pfiles := rfl
  root := rfl
  cur := by
    funext k
    unfold Afs.cur Afs.load
    by_cases hk : k = m
    · subst hk
      simp only [update_self, Option.bind_some, hfree, Option.bind_none]
      rfl
    · have hkm : (k : ℤ) ≠ m := by omega
      simp only [update_of_ne hkm]
      cases hk' : a.vinode_hash k with
      | none => rfl
      | some x =>
        have hx : x ≠ f := by
          rintro rfl
          exact hunh k hk'
        simp only [Option.bind_some, update_of_ne hx]
  next := hnext
  dentries := fun _ _ hd => hd
  vinodes := by
    intro x X hX
    have hx : x ≠ f := (ne_of_none hX hf).symm
    exact ⟨X.ref, le_rfl, (update_of_ne hx _ _).trans hX⟩
  dentry_hash := fun _ _ hk => hk
  vinode_hash := by
    intro k x hk
    have hne : k ≠ m := (ne_of_none hk hfree).symm
    exact (update_of_ne hne _ _).trans hk

variable {name : CString} {next : ℕ}

def Afs.blank (a : Afs) (name : CString) (up : ℕ) : Afs :=
  { a with dentries := update a.dentries a.next (some ⟨name, 0, none, some up⟩), next := a.next + 1 }

theorem Inv.blank (h : Inv D a) : Inv { D with stray := D.stray ∪ {a.next} } (a.blank name up) :=
  h.setStray (.inr le_rfl) (fun x hx => by simp [hx]) (.inr (.inr rfl)) (by omega) (by omega)

theorem Inv.unblank (h : Inv { D with stray := D.stray ∪ {d} } a) (hlt : d < a.next) :
    Inv D { a with dentries := update a.dentries d none } :=
  h.setStray (.inl (.inr rfl)) (fun x hx => by simp [hx]) (.inl rfl) le_rfl hlt

theorem Node.blank {up' : ℕ} (hN : Node D a up v V) (h : Inv D a) :
    Node { D with stray := D.stray ∪ {a.next} } (a.blank name up') up v V := by
  obtain ⟨De, hDe, hv⟩ := hN.dentry
  have hne : up ≠ a.next := (h.dentry_lt hDe).ne
  refine ⟨⟨De, (update_of_ne hne _ _).trans hDe, hv⟩, ?_, hN.vinode, hN.rfs, hN.tight⟩
  rintro (hm | hm)
  · exact hN.hashed hm
  · exact hne hm

theorem DirAt.blank {up' : ℕ} (hdir : DirAt D a up p) (h : Inv D a) :
    DirAt { D with stray := D.stray ∪ {a.next} } (a.blank name up') up p := by
  obtain ⟨v, V, hN, ht, hp⟩ := hdir
  exact ⟨v, V, hN.blank h, ht, hp⟩

theorem hang_load_blank :
    ((a.blank name up).load f m next).hang a.next v V up name next =
      (a.load f m next).hang a.next v V up name next := by
  unfold Afs.hang Afs.load Afs.blank
  simp only [update_idem]
  rfl

theorem update_none {β : Type} {f : ℕ → Option β} {k : ℕ} (h : f k = none) : update f k none = f := by
  rw [← h, update_eq_self]

theorem DirAt.lt_next (h : Inv D a) (hdir : DirAt D a up p) : up < a.next := by
  obtain ⟨w, W, hN, -⟩ := hdir
  obtain ⟨De, hDe, -⟩ := hN.dentry
  exact h.dentry_lt hDe

theorem Inv.root_ne (h : Inv D a) : a.next ≠ a.vfs_root_dentry := by
  obtain ⟨De, hDe, -⟩ := h.tree.root
  exact (h.dentry_lt hDe).ne'

/-- what is known after a new dentry `d` has been hung below `up`, at the location `l` -/
structure Hung (D : Debts) (a a' : Afs) (d up : ℕ) (l : Loc) : Prop where
  tidy : Tidy D a'
  grows : Grows a a'
  loc : a'.loc d = some l
  hashed : d ∉ D.stray
  dentry : ∃ De, a'.dentries d = some De ∧ De.parent = some up

theorem Tidy.hang (h : Tidy D a) (hV : a.vinodes v = some V) (hr : V.host = false) (hdir : DirAt D a up p)
    (hfree : a.dentry_hash (some up, name) = none) (hfind : a.find p name = some V.inum) (hnext : a.next < next) :
    Tidy D (a.hang a.next v V up name next) ∧ Grows a (a.hang a.next v V up name next) := by
  have hgrow : Grows a (a.hang a.next v V up name next) := grows_hang hV (h.inv.tree.fresh _ le_rfl) hfree hnext.le
  refine ⟨h.grown ?_ hgrow, hgrow⟩
  exact Inv.hang (S := D.stray) h.inv (fun _ _ => Iff.rfl) (h.unstray le_rfl) (.inr le_rfl) hV hr h.tight hdir
    (hdir.lt_next h.inv)
    hfree hfind hnext.le hnext

theorem Tidy.hung_same (h : Tidy D a) (hV : a.vinodes v = some V) (hr : V.host = false) (hm : V.inum = m)
    (hdir : DirAt D a up p) (hfree : a.dentry_hash (some up, name) = none) (hfind : a.find p name = some (m : ℤ))
    (hl : a.loc up = some l) (hnext : a.next < next) :
    Hung D a (a.hang a.next v V up name next) a.next up ((name, m) :: l) := by
  obtain ⟨htidy, hgrow⟩ := h.hang hV hr hdir hfree (by rw [hm]; exact hfind) hnext
  refine ⟨htidy, hgrow, ?_, h.unstray le_rfl, _, update_self _ _ _, rfl⟩
  exact loc_child (a := a.hang a.next v V up name next) (V := { V with ref := V.ref + 1 }) h.inv.root_ne
    (update_self _ _ _) rfl (update_self _ _ _) hm rfl (hdir.lt_next h.inv) (hgrow.loc hl)

theorem Tidy.load {S : Set ℕ} (h : Tidy D a) (h' : Inv { D with stray := S } a') (hh : a'.vinode_hash m = none)
    (hm : a.vinode_hash m = none) (hf : a.next ≤ f) (hf' : a'.next ≤ f) (hlive : Live a' m) (hnext : f < next) :
    Inv { D with stray := S } (a'.load f m next) := by
  refine (h'.load hf' h.tight hlive hh hnext).debts rfl rfl (fun _ _ => rfl) ?_ ?_
  · intro x X k _ _ _ _ _
    by_cases hk : k = m
    · subst hk
      simp [h.memory k hm]
    · simp [hk]
  · intro x X _ _ _
    by_cases hx : x = f
    · subst hx
      simp [h.refs x hf]
    · simp [hx]

section

variable (h : Tidy D a) (hlive : Live a m) (hm : a.vinode_hash m = none) (hdir : DirAt D a up p)
  (hfree : a.dentry_hash (some up, name) = none) (hfind : a.find p name = some (m : ℤ))

include h hlive hm hdir hfree hfind

theorem Tidy.hangNew (hf : a.next < f) (hnext : f < next) :
    Tidy D ((a.load f m next).hang a.next f (loaded a m) up name next) ∧
      Grows a ((a.load f m next).hang a.next f (loaded a m) up name next) := by
  have hgrow : Grows a ((a.load f m next).hang a.next f (loaded a m) up name next) := by
    refine (grows_load (h.inv.cache.fresh f hf.le) (h.inv.cache.fresh_unhashed hf.le) hm (hf.trans hnext).le).trans ?_
    exact grows_hang (update_self _ _ _) (h.inv.tree.fresh _ le_rfl) hfree le_rfl
  refine ⟨h.grown ?_ hgrow, hgrow⟩
  have hblank : Inv { D with stray := D.stray ∪ {a.next} } (a.blank name up) := h.inv.blank
  have hload := h.load hblank hm hm hf.le hf hlive hnext
  have hdir' : DirAt { D with stray := D.stray ∪ {a.next} } (a.blank name up) up p := hdir.blank h.inv
  obtain ⟨w, W, hN, ht, hp⟩ := hdir'
  have hwf : w ≠ f := by
    have := h.inv.vinode_lt hN.vinode
    omega
  rw [← hang_load_blank]
  refine Inv.hang (p := p) hload (fun x hx => by simp [hx]) (h.unstray le_rfl) (.inl (.inr rfl)) (update_self _ _ _) rfl
    h.tight ?_ (hdir.lt_next h.inv) hfree hfind le_rfl (by omega)
  exact ⟨w, W, { hN with vinode := (update_of_ne hwf _ _).trans hN.vinode }, ht, hp⟩

theorem Tidy.hung_new (hl : a.loc up = some l) (hf : a.next < f) (hnext : f < next) :
    Hung D a ((a.load f m next).hang a.next f (loaded a m) up name next) a.next up ((name, m) :: l) := by
  obtain ⟨htidy, hgrow⟩ := h.hangNew hlive hm hdir hfree hfind hf hnext
  refine ⟨htidy, hgrow, ?_, h.unstray le_rfl, _, update_self _ _ _, rfl⟩
  exact loc_child (a := (a.load f m next).hang a.next f (loaded a m) up name next) (V := { loaded a m with ref := 1 })
    h.inv.root_ne (update_self _ _ _) rfl (update_self _ _ _) rfl rfl (hdir.lt_next h.inv) (hgrow.loc hl)

end

/-! ## One name -/

/-- **One name.** `lookup_final_dentry` at a name: the dentry of what the directory on disk has under that name, or
none. -/
theorem lookupName_spec {token : CString} {Up : Dentry} {Q : Option ℕ → Afs → Prop} (h : Tidy D a)
    (hE : l = [] → token ≠ ramdisk0 → E .hostfs)
    (hUp : a.dentries up = some Up) (hst : up ∉ D.stray) (hl : a.loc up = some l)
    (hclean : ∀ name k l', l = (name, k) :: l' → (a.dinode k).type = FILE_I → (a.cur k).size < 32)
    (hsome : ∀ d a' m, Hung D a a' d up ((token, m) :: l) →
      (l = [] ∧ token = ramdisk0 ∧ m = 0 ∨ ∃ name k l', l = (name, k) :: l' ∧ a.find k token = some (m : ℤ)) →
        Q (some d) a')
    (hnone : ∀ a' name k l', Tidy D a' → Grows a a' → l = (name, k) :: l' → a.find k token = none → Q none a') :
    Spec abs E a (lookupName up token) Q := by
  apply spec_get_bind
  intro s hs
  rw [show s.dentry_hash = a.dentry_hash by rw [← hs]; rfl]
  cases hk : a.dentry_hash (some up, token) with
  | some d =>
    -- the dentry is in the hash table
    obtain ⟨hd, De, hDe, hkey⟩ := h.inv.tree.hashed _ d hk
    obtain ⟨hpar, hname⟩ := Prod.mk.inj hkey
    obtain ⟨l', hl', hseat⟩ := h.inv.seat hDe hd
    apply spec_pure
    cases hseat with
    | root _ hp =>
      rw [hp] at hpar
      cases hpar
    | mount hp hn =>
      cases hp.symm.trans hpar
      cases hl.symm.trans loc_root
      obtain rfl : token = ramdisk0 := hname.symm.trans hn
      exact hsome d _ 0 ⟨h, Grows.refl _, hl', hd, De, hDe, hpar⟩ (.inl ⟨rfl, rfl, rfl⟩)
    | @below up' _ p n _ name l'' hp hloc _ _ _ hfind =>
      cases hp.symm.trans hpar
      obtain rfl : l = (name, p) :: l'' := Option.some.inj (hl.symm.trans hloc)
      subst hname
      exact hsome d _ n ⟨h, Grows.refl _, hl', hd, De, hDe, hpar⟩ (.inr ⟨name, p, l'', rfl, hfind⟩)
  | none =>
    have hup := h.inv.dentry_lt hUp
    have hUp' : (a.blank token up).dentries up = some Up := (update_of_ne (by omega) _ _).trans hUp
    have hblank : Inv { D with stray := D.stray ∪ {a.next} } (a.blank token up) := h.inv.blank
    -- without an entry the new dentry is freed
    have hgone : ∀ name k l', l = (name, k) :: l' → a.find k token = none →
        Spec abs E (a.blank token up) (do freeDentry a.next; return none) Q := by
      intro name k l' hkl hfind
      apply Spec.seq
      apply freeDentry_spec
      apply spec_pure
      have hsame : update (a.blank token up).dentries a.next none = a.dentries := by
        unfold Afs.blank
        rw [update_idem, update_none (h.inv.tree.fresh _ le_rfl)]
      have hinv := hblank.unblank (Nat.lt_succ_self _)
      rw [hsame] at hinv ⊢
      have hgrow : Grows a { a.blank token up with dentries := a.dentries } :=
        ⟨rfl, rfl, rfl, rfl, rfl, rfl, Nat.le_succ _, fun _ _ hx => hx, fun _ V hx => ⟨V.ref, le_rfl, hx⟩,
          fun _ _ hx => hx,
          fun _ _ hx => hx⟩
      exact hnone _ name k l' (h.grown hinv hgrow) hgrow hkl hfind
    apply Spec.seq
    apply allocVfsDentry_spec
    obtain ⟨l', hl', hseat⟩ := h.inv.seat hUp hst
    cases hl.symm.trans hl'
    apply Spec.seq
    cases l with
    | nil =>
      cases hseat with
      | root hroot =>
        subst hroot
        obtain ⟨Up1, hUp1, -, -, v, V, hv, hV, hh, -⟩ := h.inv.tree.root
        cases hUp.symm.trans hUp1
        have htoken : token ≠ ramdisk0 := by
          intro he
          obtain ⟨x, hx⟩ := h.inv.tree.mount
          rw [he, hx] at hk
          cases hk
        grind [rfsInodeOf_spec]
    | cons head l' =>
      obtain ⟨name, k⟩ := head
      obtain ⟨v, V, hN, hn⟩ := hseat.node
      refine rfsInodeOf_spec hUp' (hN.inode hUp) hN.vinode (fun hh => by rw [hN.rfs] at hh; cases hh) fun _ => ?_
      obtain ⟨hh, hlive, hsync, -, hcur⟩ := hN.cachedAt h.inv hn
      apply Spec.seq
      by_cases ht : V.type = DIR_I
      · have hdir : DirAt D a up k := ⟨v, V, hN, ht, hn⟩
        refine rfsLookup_spec (hblank.folder hN.vinode hN.rfs hN.tight ht hn) ?_ ?_ ?_
        · intro x hx
          obtain ⟨e, he, -, hi⟩ := find_mem hx
          obtain ⟨-, m, hm, hlm⟩ := hblank.disk.entries k e he
          exact ⟨m, hblank.disk.live_lt m hlm, by omega⟩
        · exact hgone name k l' rfl
        · intro m hm hfind
          have hlive : Live a m := by
            obtain ⟨e, he, -, hi⟩ := find_mem hfind
            obtain ⟨-, m', hm', hlm⟩ := h.inv.disk.entries k e he
            obtain rfl : m = m' := by omega
            exact hlm
          refine dentryAt_spec (D := ⟨token, 0, none, some up⟩) (update_self _ _ _) ?_
          apply spec_get_bind
          intro s hs
          refine vinodeAt_spec (V := loaded a m) (update_self _ _ _) ?_
          have hhash : s.vinode_hash (loaded a m).inum = a.vinode_hash m := by
            show (abs s).vinode_hash m = _
            rw [hs]
          rw [hhash]
          cases hv : a.vinode_hash m with
          | some same =>
            obtain ⟨X, hX, hXi, hXr, -⟩ := h.inv.cache.hashed _ _ hv
            have hne : same ≠ a.next + 1 := by
              have := h.inv.vinode_lt hX
              omega
            apply Spec.seq
            apply setDentry_spec
            apply Spec.seq
            refine refUp_spec (V := X) ((update_of_ne hne _ _).trans hX) ?_
            apply Spec.seq
            apply freeVinode_spec
            apply Spec.seq
            refine hashPutDentry_spec (D := ⟨token, 0, some same, some up⟩) (update_self _ _ _) hk ?_
            apply spec_pure
            have key := hsome _ _ m (h.hung_same hX hXr hXi hdir hk hfind hl (Nat.lt_add_of_pos_right two_pos))
              (.inr ⟨name, k, l', rfl, hfind⟩)
            refine (congrArg (Q (some a.next)) ?_).mp key
            simp only [update_idem]
            rw [update_comm hne.symm, update_idem,
              update_none ((update_of_ne hne.symm _ _).trans (h.inv.cache.fresh _ (Nat.le_succ _)))]
            rfl
          | none =>
            apply Spec.seq
            apply setDentry_spec
            apply Spec.seq
            refine refUp_spec (V := loaded a m) (update_self _ _ _) ?_
            apply Spec.seq
            refine hashPutVinode_spec (V := { loaded a m with ref := 1 }) (update_self _ _ _)
              (Int.natCast_nonneg m) hv ?_
            apply Spec.seq
            refine hashPutDentry_spec (D := ⟨token, 0, some (a.next + 1), some up⟩) (update_self _ _ _) hk ?_
            apply spec_pure
            have key := hsome _ _ m (h.hung_new hlive hv hdir hk hfind hl (Nat.lt_succ_self _) (Nat.lt_succ_self _))
              (.inr ⟨name, k, l', rfl, hfind⟩)
            refine (congrArg (Q (some a.next)) ?_).mp key
            unfold Afs.hang Afs.load
            simp only [update_idem]
            rfl
      · -- a file that is too short to have an entry
        have hfile : (a.dinode k).type = FILE_I := by
          have hshape := (h.inv.disk.shape k hlive).type
          rw [(h.inv.cache.synced k).type] at hshape
          exact hshape.resolve_right fun hd => ht (hsync.type.trans hd)
        have hsize : V.size < 32 := by
          have := hclean name k l' rfl hfile
          rwa [hcur] at this
        refine rfsLookup_short (by exact hN.vinode) hsize (hgone name k l' rfl ?_)
        unfold Afs.find
        rw [h.inv.disk.nil k fun hd => ht (hsync.type.trans hd)]
        rfl

/-! ## A path -/

/-- where a walk ends -/
inductive Walk where
  | found (l : Loc)
  | missing (l : Loc) (name : CString)
  | host
deriving DecidableEq

/-- the walk from a location, over the directories on disk; what is not below the mount point is the host's -/
def Afs.walk (a : Afs) : List CString → Loc → Walk
  | [], l => .found l
  | token :: rest, l =>
    if token = dot then a.walk rest l
    else if token = dotdot then a.walk rest l.tail
    else
      match l with
      | [] => if token = ramdisk0 then a.walk rest [(ramdisk0, 0)] else .host
      | (name, n) :: l' =>
        match a.find n token with
        | some m => a.walk rest ((token, m.toNat) :: (name, n) :: l')
        | none => .missing ((name, n) :: l') token

def Afs.Clean (a : Afs) : List CString → Loc → Prop
  | [], _ => True
  | token :: rest, l =>
    if token = dot then a.Clean rest l
    else if token = dotdot then a.Clean rest l.tail
    else
      match l with
      | [] => token = ramdisk0 → a.Clean rest [(ramdisk0, 0)]
      | (name, n) :: l' =>
        ((a.dinode n).type = FILE_I → (a.cur n).size < 32) ∧
          ∀ m, a.find n token = some m → a.Clean rest ((token, m.toNat) :: (name, n) :: l')

theorem Grows.find (h : Grows a a') : a'.find = a.find := by
  funext p name
  unfold Afs.find
  rw [h.dir]

theorem Grows.walk (h : Grows a a') (ts : List CString) : a'.walk ts l = a.walk ts l := by
  induction ts generalizing l with
  | nil => rfl
  | cons token rest ih =>
    simp only [Afs.walk, ih, h.find]

theorem Grows.clean (h : Grows a a') (ts : List CString) : a'.Clean ts l ↔ a.Clean ts l := by
  induction ts generalizing l with
  | nil => rfl
  | cons token rest ih =>
    simp only [Afs.Clean, ih, h.find, h.dinode, h.cur]

def Under (D : Debts) (a : Afs) (d : ℕ) (parent : Option ℕ) : Prop :=
  d ∉ D.stray ∧ ∃ De, a.dentries d = some De ∧ (parent = De.parent ∨ d = a.vfs_root_dentry ∨ ∃ p, DirAt D a d p)

def Answer (D : Debts) (a : Afs) (r : Looked) : Walk → Prop
  | .found l => ∃ d, r.dentry = some d ∧ a.loc d = some l ∧ Under D a d r.parent
  | .missing l name => r.dentry = none ∧ r.miss_name = name ∧
      ∃ d De, r.parent = some d ∧ d ∉ D.stray ∧ a.dentries d = some De ∧ a.loc d = some l
  | .host => False

/-- **A path.** The loop of `lookup_final_dentry` ends where the walk over the directories on disk ends. -/
theorem lookupTokens_spec {ts : List CString} {this : ℕ} {parent : Option ℕ}
    (hE : a.walk ts l = .host → E .hostfs) (h : Tidy D a)
    (hl : a.loc this = some l) (hpar : Under D a this parent) (hclean : a.Clean ts l) :
    Spec abs E a (lookupTokens ts this parent) fun r a' => Tidy D a' ∧ Grows a a' ∧ Answer D a' r (a.walk ts l) := by
  induction ts generalizing a this parent l with
  | nil => exact spec_pure ⟨h, Grows.refl a, this, rfl, hl, hpar⟩
  | cons token rest ih =>
    obtain ⟨hst, De, hDe, hpar'⟩ := id hpar
    unfold lookupTokens Afs.walk
    unfold Afs.Clean at hclean
    unfold Afs.walk at hE
    by_cases hdot : token = dot
    · grind
    simp only [if_neg hdot] at hclean hE ⊢
    by_cases hdotdot : token = dotdot
    · simp only [if_pos hdotdot] at hclean hE ⊢
      apply dentryAt_spec hDe
      obtain ⟨l', hl', hseat⟩ := h.inv.seat hDe hst
      cases hl.symm.trans hl'
      cases hseat with
      | root _ hp =>
        rw [hp]
        exact ih hE h hl hpar hclean
      | mount hp =>
        obtain ⟨Up, hUp, hup, -⟩ := h.inv.tree.root
        rw [hp]
        apply dentryAt_spec hUp
        exact ih hE h loc_root ⟨hup, Up, hUp, .inl rfl⟩ hclean
      | @below up _ _ _ _ _ _ hp hloc hdir =>
        obtain ⟨w, W, hN, -⟩ := id hdir
        obtain ⟨Up, hUp, -⟩ := hN.dentry
        rw [hp]
        apply dentryAt_spec hUp
        exact ih hE h hloc ⟨hN.hashed, Up, hUp, .inl rfl⟩ hclean
    simp only [if_neg hdotdot] at hclean hE ⊢
    apply Spec.seq
    refine lookupName_spec h ?_ hDe hst hl ?_ ?_ ?_
    · grind
    · rintro name k l' rfl
      exact hclean.1
    · intro d a1 m hung hm
      obtain ⟨De', hDe', hp'⟩ := hung.dentry
      have hunder : Under D a1 d (some this) := ⟨hung.hashed, De', hDe', .inl hp'.symm⟩
      rcases hm with ⟨rfl, htoken, rfl⟩ | ⟨name, k, l', rfl, hfind⟩
      · simp only [if_pos htoken] at hE ⊢
        have hloc := hung.loc
        rw [htoken] at hloc
        refine (ih (by rwa [hung.grows.walk]) hung.tidy hloc hunder ((hung.grows.clean rest).2 (hclean htoken))).post ?_
        intro r a2 ⟨h2, hg, ha⟩
        rw [hung.grows.walk] at ha
        exact ⟨h2, hung.grows.trans hg, ha⟩
      · simp only [hfind, Int.toNat_natCast] at hE ⊢
        have hrest := hclean.2 m hfind
        refine (ih (by rwa [hung.grows.walk]) hung.tidy hung.loc hunder ((hung.grows.clean rest).2 hrest)).post ?_
        intro r a2 ⟨h2, hg, ha⟩
        rw [hung.grows.walk] at ha
        exact ⟨h2, hung.grows.trans hg, ha⟩
    · intro a1 name k l' h1 hg hkl hfind
      subst hkl
      simp only [hfind]
      exact spec_pure ⟨h1, hg, rfl, rfl, this, De, rfl, hst, hg.dentries _ _ hDe, hg.loc hl⟩

/-- the location that a lookup starts at -/
def Afs.start (a : Afs) (path : CString) (parent : ℕ) : Loc := if absolute path then [] else (a.loc parent).getD []

def Afs.resolve (a : Afs) (path : CString) (parent : ℕ) : Walk := a.walk (tokens path) (a.start path parent)

def Afs.CleanPath (a : Afs) (path : CString) (parent : ℕ) : Prop := a.Clean (tokens path) (a.start path parent)

/-- a directory to start at: that of the RAM disk or the root -/
def Base (D : Debts) (a : Afs) (d : ℕ) : Prop := d = a.vfs_root_dentry ∨ ∃ p, DirAt D a d p

theorem Inv.base (h : Inv D a) (hd : Base D a d) : ∃ De l, a.dentries d = some De ∧ d ∉ D.stray ∧ a.loc d = some l := by
  rcases hd with rfl | ⟨p, w, W, hN, -⟩
  · obtain ⟨De, hDe, hst, -⟩ := h.tree.root
    exact ⟨De, [], hDe, hst, loc_root⟩
  · obtain ⟨De, hDe, -⟩ := hN.dentry
    obtain ⟨l, hl, -⟩ := h.seat hDe hN.hashed
    exact ⟨De, l, hDe, hN.hashed, hl⟩

theorem Inv.begins {parent : ℕ} (h : Inv D a) (hbase : Base D a parent) (path : CString) (up : Option ℕ) :
    Under D a (if absolute path then a.vfs_root_dentry else parent) up ∧
      a.loc (if absolute path then a.vfs_root_dentry else parent) = some (a.start path parent) := by
  unfold Afs.start
  split
  · obtain ⟨De, hDe, hst, -⟩ := h.tree.root
    exact ⟨⟨hst, De, hDe, .inr (.inl rfl)⟩, loc_root⟩
  · obtain ⟨De, l, hDe, hst, hl⟩ := h.base hbase
    exact ⟨⟨hst, De, hDe, .inr hbase⟩, by rw [hl]; rfl⟩

theorem lookupFinalDentry_spec {path : CString} {parent : ℕ} (hE : a.resolve path parent = .host → E .hostfs)
    (hE' : MAX_PATH_LEN ≤ path.length → E (.stop .outOfBounds)) (h : Tidy D a) (hbase : Base D a parent)
    (hclean : a.CleanPath path parent) :
    Spec abs E a (lookupFinalDentry path parent) fun r a' =>
      Tidy D a' ∧ Grows a a' ∧ Answer D a' r (a.resolve path parent) := by
  unfold lookupFinalDentry
  dsimp only
  by_cases hlen : MAX_PATH_LEN ≤ path.length
  · rw [if_pos hlen]
    exact Spec.seq (spec_throw (hE' hlen))
  · rw [if_neg hlen]
    apply spec_get_bind
    intro s hs
    rw [show s.vfs_root_dentry = a.vfs_root_dentry by rw [← hs]; rfl]
    obtain ⟨hunder, hloc⟩ := h.inv.begins hbase path (some (if absolute path then a.vfs_root_dentry else parent))
    exact lookupTokens_spec hE h hloc hunder hclean

end RiscvPke.Fs
