/-
The calls that add an entry to a directory, from the state after their lookups: `vfs_open` with O_CREAT,
`vfs_mkdir` and `vfs_link`.
-/
import RiscvPke.Fs.Lookup

namespace RiscvPke.Fs

open Function CData RiscvPke.Count Run

variable {D : Debts} {a a' : Afs} {n m v w d p k b up : ℕ} {V W : Vinode} {De : Dentry} {E : Fault → Prop} {l : Loc}
  {name : CString}

/-! ## Entries -/

theorem linksIn_append {l : List Entry} :
    linksIn (l ++ [⟨name, (m : ℤ)⟩]) n = linksIn l n + if n = m then 1 else 0 := by
  grind [linksIn]

theorem Inv.addEntry (h : Inv D a) (hW : a.vinodes w = some W) (hr : W.host = false) (hl : w ∉ D.loose)
    (hk : W.inum = k) (ht : W.type = DIR_I) (hroom : (a.dir k).length < BLOCK_DIRENTRYS)
    (hname : name.length < RFS_MAX_FILE_NAME_LEN) (hm : Live a m)
    (hdir : (a.dinode m).type = DIR_I → a.links m = 0) (h0 : m ≠ 0) :
    Inv { D with links := update D.links m (D.links m - 1) } (a.putDir w W k (a.dir k ++ [⟨name, (m : ℤ)⟩])) := by
  have key := h.rewriteDir hW hr hl hk ht (l := a.dir k ++ [⟨name, (m : ℤ)⟩]) ?_ ?_ ?_ ?_ ?_
  · have heq : (fun n => D.links n + (linksIn (a.dir k) n : ℤ) - (linksIn (a.dir k ++ [⟨name, (m : ℤ)⟩]) n : ℤ)) =
        update D.links m (D.links m - 1) := by
      funext n
      rw [linksIn_append]
      by_cases hn : n = m
      · subst hn
        rw [update_self, if_pos rfl]
        push_cast
        ring
      · rw [update_of_ne hn, if_neg hn]
        omega
    rw [heq] at key
    exact key
  · rw [List.length_append]
    exact hroom
  · intro e he
    rcases List.mem_append.1 he with he | he
    · exact h.disk.entries k e he
    · obtain rfl := List.mem_singleton.1 he
      exact ⟨hname, m, rfl, hm⟩
  · intro up nm x d _ _ hx
    obtain ⟨e, he, hi⟩ := Option.map_eq_some_iff.1 hx
    rw [List.find?_append, he]
    exact congrArg some hi
  · intro n hn
    rw [linksIn_append]
    by_cases hnm : n = m
    · subst hnm
      rw [hdir hn, if_pos rfl]
      omega
    · have := h.dirs.links n hn
      rw [if_neg hnm]
      omega
  · rw [linksIn_append, if_neg h0.symm]
    exact le_rfl

theorem putDir_append (hW : W.size = 32 * ((a.dir k).length : ℤ)) {x : ℤ} : a.putDir w W k (a.dir k ++ [⟨name, x⟩]) =
      { a with
        vinodes := update a.vinodes w (some { W with size := W.size + 32 })
        dinode := update a.dinode k { W.toDinode with size := W.size + 32 }
        dir := update a.dir k (a.dir k ++ [⟨name, x⟩]) } := by
  have : W.size + 32 = 32 * ((a.dir k ++ [(⟨name, x⟩ : Entry)]).length : ℤ) := by
    rw [List.length_append, List.length_singleton, hW]
    push_cast
    ring
  rw [this]
  rfl

/-! ## A new inode with its entry -/

def Afs.mint (a : Afs) (m b : ℕ) (type : ℤ) : Afs :=
  { a with
    used := update a.used b true
    dinode := update a.dinode m ((a.dinode m).fresh b type) }

def Afs.make (a : Afs) (w : ℕ) (W : Vinode) (k : ℕ) (name : CString) (m b : ℕ) (type : ℤ) : Afs :=
  (a.mint m b type).putDir w W k (a.dir k ++ [⟨name, (m : ℤ)⟩])

/-- an inode and a block that are free -/
structure Vacant (a : Afs) (m b : ℕ) : Prop where
  inode_lt : m < NINODES
  inode : (a.dinode m).type = R_FREE
  block_lt : b < NBLOCKS
  block : a.used b = false

theorem Vacant.ne (hv : Vacant a m b) (hk : Live a k) : m ≠ k := by
  rintro rfl
  exact hk hv.inode

theorem Tidy.mint {type : ℤ} (h : Tidy D a) (hv : Vacant a m b) (ht : type = FILE_I ∨ type = DIR_I) :
    Inv { D with links := update D.links m 1 } (a.mint m b type) :=
  h.inv.newInode hv.inode_lt hv.inode hv.block_lt hv.block ht

theorem Tidy.mintDir (h : Tidy D a) (hv : Vacant a m b) : Tidy D (a.mint m b DIR_I) where
  inv := by
    refine (h.mint hv (.inr rfl)).debts rfl rfl ?_ (fun _ _ _ _ _ _ _ _ => rfl) fun _ _ _ _ _ => rfl
    intro n hn
    have hnm : n ≠ m := by
      rintro rfl
      have : (update a.dinode n ((a.dinode n).fresh b DIR_I) n).type = FILE_I := hn
      rw [update_self] at this
      cases this
    exact (update_of_ne hnm _ _).symm
  __ := h
  links := by
    intro n hn
    by_cases hnm : n = m
    · rw [hnm]
      exact h.links m (by rw [hv.inode]; decide)
    · exact h.links n fun hf => hn ((congrArg Dinode.type (update_of_ne hnm _ _)).trans hf)

/-- a new name in the directory `k` -/
structure Opening (D : Debts) (a : Afs) (up w : ℕ) (W : Vinode) (k : ℕ) (name : CString) : Prop where
  node : Node D a up w W
  type : W.type = DIR_I
  inum : W.inum = k
  room : (a.dir k).length < BLOCK_DIRENTRYS
  short : name.length < RFS_MAX_FILE_NAME_LEN
  unhashed : a.dentry_hash (some up, name) = none
  new : a.find k name = none

theorem Tidy.make {type : ℤ} (h : Tidy D a) (hv : Vacant a m b) (ht : type = FILE_I ∨ type = DIR_I)
    (ho : Opening D a up w W k name) : Tidy D (a.make w W k name m b type) := by
  have hfree : D.links m = 0 := h.links m (by rw [hv.inode]; decide)
  have h0 : m ≠ 0 := by
    rintro rfl
    have := h.inv.disk.root
    rw [hv.inode] at this
    cases this
  have hlinks : a.links m = 0 := h.inv.links_of_free hv.inode
  have hlive : Live (a.mint m b type) m := by
    have hd : (a.mint m b type).dinode m = (a.dinode m).fresh b type := update_self _ _ _
    apply live_of_type
    rw [hd]
    exact ht
  have key := (h.mint hv ht).addEntry ho.node.vinode ho.node.rfs ho.node.tight ho.inum ho.type ho.room ho.short hlive
    (fun _ => hlinks) h0
  obtain ⟨-, -, hsync, -⟩ := ho.node.cachedAt h.inv ho.inum
  refine { h with inv := ?_, links := ?_ }
  · refine key.debts rfl rfl ?_ (fun _ _ _ _ _ _ _ _ => rfl) fun _ _ _ _ _ => rfl
    intro n _
    simp only [update_self, update_idem]
    grind
  · intro n hn
    by_cases hnm : n = m
    · rw [hnm]
      exact hfree
    · apply h.links
      intro hf
      by_cases hnk : n = k
      · rw [hnk, ← hsync.type, ho.type] at hf
        cases hf
      · refine hn ?_
        show (update (update a.dinode m _) k _ n).type = FILE_I
        rw [update_of_ne hnk, update_of_ne hnm]
        exact hf

variable {q : CString}

theorem Tidy.unhashed (h : Tidy D a) (hl : a.loc up = some ((q, k) :: l)) (hfind : a.find k name = none) :
    a.dentry_hash (some up, name) = none := by
  cases hk : a.dentry_hash (some up, name) with
  | none => rfl
  | some d =>
    obtain ⟨hd, De, hDe, hkey⟩ := h.inv.tree.hashed _ d hk
    obtain ⟨hpar, rfl⟩ := Prod.mk.inj hkey
    obtain ⟨l', -, hseat⟩ := h.inv.seat hDe hd
    cases hseat with
    | root _ hp =>
      rw [hp] at hpar
      cases hpar
    | mount hp =>
      cases hp.symm.trans hpar
      rw [loc_root] at hl
      cases hl
    | @below up' _ p n _ q' l'' hp hloc _ _ _ hf =>
      grind

variable {r : Looked}

/-- a lookup has ended at the parent of a new name -/
structure Target (D : Debts) (a : Afs) (r : Looked) (up k : ℕ) (name : CString) : Prop where
  parent : r.parent = some up
  node : ∃ w W, Node D a up w W ∧ W.inum = k
  unhashed : a.dentry_hash (some up, name) = none
  new : a.find k name = none
  fits : (a.dinode k).type = DIR_I → (a.dir k).length < BLOCK_DIRENTRYS ∧ name.length < RFS_MAX_FILE_NAME_LEN

theorem Target.opening (hT : Target D a r up k name) (h : Tidy D a) (hN : Node D a up w W) (hk : W.inum = k)
    (ht : W.type = DIR_I) : Opening D a up w W k name := by
  obtain ⟨-, -, hsync, -⟩ := hN.cachedAt h.inv hk
  obtain ⟨hroom, hname⟩ := hT.fits (hsync.type.symm.trans ht)
  exact ⟨hN, ht, hk, hroom, hname, hT.unhashed, hT.new⟩

theorem parentInode_spec {N : ℕ → Afs → Prop} (hr : r.parent = some up) (hN : Node D a up w W) (h : N w a) :
    Spec abs E a (parentInode r) N := by
  obtain ⟨Up, hUp, hw⟩ := hN.dentry
  unfold parentInode
  rw [hr]
  refine rfsInodeOf_spec hUp hw hN.vinode (fun hh => ?_) fun _ => h
  rw [hN.rfs] at hh
  cases hh

theorem attachInode_spec {U : Unit → Afs → Prop} (hd : a.dentries d = some De) (hV : a.vinodes v = some V)
    (h0 : 0 ≤ V.inum) (hk : a.dentry_hash (De.parent, De.name) = none) (hv : a.vinode_hash V.inum = none) (h : U ()
      { a with
        dentries := update a.dentries d (some { De with dentry_inode := some v })
        vinodes := update a.vinodes v (some { V with ref := V.ref + 1 })
        dentry_hash := update a.dentry_hash (De.parent, De.name) (some d)
        vinode_hash := update a.vinode_hash V.inum (some v) }) :
    Spec abs E a (attachInode d v) U := by
  apply dentryAt_spec hd
  apply Spec.seq
  apply setDentry_spec
  apply Spec.seq
  refine refUp_spec (V := V) hV ?_
  apply Spec.seq
  refine hashPutDentry_spec (D := { De with dentry_inode := some v }) (update_self _ _ _) hk ?_
  exact hashPutVinode_spec (V := { V with ref := V.ref + 1 }) (update_self _ _ _) h0 hv h

def Afs.created (a : Afs) (w : ℕ) (W : Vinode) (k : ℕ) (name : CString) (m b : ℕ) (type : ℤ) (up : ℕ) : Afs :=
  ((a.make w W k name m b type).load (a.next + 1) m (a.next + 2)).hang a.next (a.next + 1)
    (loaded (a.make w W k name m b type) m) up
    name (a.next + 2)

theorem Folder.congr (h : Folder a w W p) (hv : a'.vinodes w = a.vinodes w) (hdinode : a'.dinode = a.dinode)
    (hdir : a'.dir = a.dir) : Folder a' w W p := by
  refine ⟨hv.trans h.at_w, h.inum, h.lt, h.type, ?_, ?_, ?_, h.block, h.blocks, ?_, ?_⟩
  · rw [hdinode]
    exact h.same
  · rw [hdir]
    exact h.size
  · rw [hdir]
    exact h.length
  · rw [hdinode]
    exact h.alone
  · rw [hdir]
    exact h.names

variable {Q : Bool → Afs → Prop}

theorem rfsAddDirentry_file {inum : ℤ} (hW : a.vinodes w = some W) (ht : W.type ≠ DIR_I) (h : Q false a) :
    Spec abs E a (rfsAddDirentry w name inum) Q := by
  apply vinodeAt_spec hW
  rw [if_pos ht]
  exact spec_pure h

theorem rfsAddDirentry_put {inum : ℤ} (hW : Folder a w W p) (hblk : DirBlocks a)
    (hroom : (a.dir p).length < BLOCK_DIRENTRYS) (hname : name.length < RFS_MAX_FILE_NAME_LEN) (hi : inum = m)
    (hm : m < NINODES)
    (h : Q true (a.putDir w W p (a.dir p ++ [⟨name, (m : ℤ)⟩]))) : Spec abs E a (rfsAddDirentry w name inum) Q := by
  have hninodes : NINODES = 320 := rfl
  subst hi
  rw [putDir_append hW.size] at h
  exact rfsAddDirentry_spec hW hblk hroom hname (by constructor <;> omega) h

theorem vfsCreate_spec {path : CString} {Q : ℕ → Afs → Prop} (hE : Milder E)
    (hW : Spare E a) (hP : E (.stop cannotCreate) ∨ (a.dinode k).type = DIR_I)
    (h : Tidy D a) (hT : Target D a r up k (getBaseName path))
    (hQ : ∀ w W m b, Opening D a up w W k (getBaseName path) → Vacant a m b →
      Q a.next (a.created w W k (getBaseName path) m b FILE_I up)) : Spec abs E a (vfsCreate path r) Q := by
  obtain ⟨w, W, hN, hn⟩ := hT.node
  obtain ⟨-, hlive, hsync, -⟩ := hN.cachedAt h.inv hn
  have hw := h.inv.vinode_lt hN.vinode
  unfold vfsCreate
  rw [hT.parent]
  apply Spec.seq
  apply allocVfsDentry_spec
  apply Spec.seq
  refine parentInode_spec (a := a.blank (getBaseName path) up) hT.parent (hN.blank h.inv) ?_
  apply Spec.seq
  apply Spec.seq
  refine newInode_spec h.inv.dirBlocks (by decide) hW (hE.stop (by simp)) fun m b hm hmfree hb hused => ?_
  have hvac : Vacant a m b := ⟨hm, hmfree, hb, hused⟩
  refine loadVinode_spec (g := fun v =>
    do if ← rfsAddDirentry w (getBaseName path) m then return some v else return none) hm ?_
  apply Spec.seq
  by_cases ht : W.type = DIR_I
  · have ho := hT.opening h hN hn ht
    have hmint := h.mint hvac (.inl rfl)
    have hF := hmint.folder hN.vinode hN.rfs hN.tight ht hn
    have hwf : w ≠ a.next + 1 := by omega
    refine rfsAddDirentry_put (hF.congr (update_of_ne hwf _ _) rfl rfl) hmint.dirBlocks ho.room ho.short rfl hm ?_
    apply spec_pure
    apply Spec.seq
    refine attachInode_spec (V := loaded (a.mint m b FILE_I) m) (update_self _ _ _)
      ((update_of_ne hwf.symm _ _).trans (update_self _ _ _)) (Int.natCast_nonneg m) hT.unhashed
      (h.inv.unhashed_of_free hmfree) ?_
    apply spec_pure
    refine (congrArg (Q a.next) ?_).mp (hQ w W m b ho hvac)
    unfold Afs.created Afs.hang Afs.load Afs.make Afs.putDir Afs.mint Afs.blank loaded
    simp only [update_idem, update_of_ne (hvac.ne hlive), update_self]
    rw [update_comm hwf.symm (some _) (some _) a.vinodes, update_idem]
  · refine rfsAddDirentry_file (W := W) ?_ ht ?_
    · exact (update_of_ne (by show w ≠ a.next + 1; omega) _ _).trans hN.vinode
    · exact spec_pure (spec_throw (hP.resolve_right fun hdir => ht (hsync.type.trans hdir)))

theorem Tidy.bump (h : Tidy D a) : Tidy D { a with next := a.next + 1 } where
  inv := by
    have key := h.inv.setStray (d := a.next) (o := none) (S := D.stray) (.inr le_rfl) (fun _ _ => Iff.rfl) (.inl rfl)
      (Nat.le_succ _) (Nat.lt_succ_self _)
    rw [update_none (h.inv.tree.fresh _ le_rfl)] at key
    exact key
  stray := fun x hx => (h.stray x hx).trans (Nat.lt_succ_self _)
  __ := h
  refs := fun v hv => h.refs v ((Nat.le_succ _).trans hv)

theorem mkdirBody_spec (hE : Milder E) (hW : Spare E a) (h : Tidy D a) (hT : Target D a r up k name)
    (hQ : ∀ w W m b, Opening D a up w W k name → Vacant a m b → Q true (a.created w W k name m b DIR_I up))
    (hQ' : ∀ m b, (a.dinode k).type ≠ DIR_I → Vacant a m b → Q false { a.mint m b DIR_I with next := a.next + 1 }) :
    Spec abs E a (do
      let d ← allocVfsDentry name none r.parent
      match ← rfsMkdir (← parentInode r) name with
      | none =>
        freeDentry d
        return false
      | some v =>
        attachInode d v
        return true) Q := by
  obtain ⟨w, W, hN, hn⟩ := hT.node
  obtain ⟨-, hlive, hsync, -⟩ := hN.cachedAt h.inv hn
  rw [hT.parent]
  apply Spec.seq
  apply allocVfsDentry_spec
  apply Spec.seq
  refine parentInode_spec (a := a.blank name up) hT.parent (hN.blank h.inv) ?_
  apply Spec.seq
  apply Spec.seq
  refine newInode_spec h.inv.dirBlocks (by decide) hW (hE.stop (by simp)) fun m b hm hmfree hb hused => ?_
  have hvac : Vacant a m b := ⟨hm, hmfree, hb, hused⟩
  apply Spec.seq
  by_cases ht : W.type = DIR_I
  · have ho := hT.opening h hN hn ht
    have hmint := h.mint hvac (.inr rfl)
    have hF := hmint.folder hN.vinode hN.rfs hN.tight ht hn
    refine rfsAddDirentry_put (hF.congr rfl rfl rfl) hmint.dirBlocks ho.room ho.short rfl hm ?_
    refine loadVinode_spec (g := fun v => pure (some v)) hm ?_
    apply spec_pure
    apply Spec.seq
    refine attachInode_spec (update_self _ _ _) (update_self _ _ _) (Int.natCast_nonneg m) hT.unhashed
      (h.inv.unhashed_of_free hvac.inode) ?_
    apply spec_pure
    refine (congrArg (Q true) ?_).mp (hQ w W m b ho hvac)
    unfold Afs.created Afs.hang Afs.load Afs.make Afs.putDir Afs.mint Afs.blank loaded
    simp only [update_idem, update_of_ne (hvac.ne hlive), update_self]
  · refine rfsAddDirentry_file (W := W) hN.vinode ht ?_
    apply spec_pure
    apply Spec.seq
    apply freeDentry_spec
    apply spec_pure
    refine (congrArg (Q false) ?_).mp (hQ' m b (fun hd => ht (hsync.type.trans hd)) hvac)
    unfold Afs.mint Afs.blank
    simp only [update_idem]
    rw [update_none (h.inv.tree.fresh _ le_rfl)]

/-! ## Link counts -/

theorem Dinode.Ints.nlinks {e : Dinode} {z : ℤ} (h : e.Ints) (hz : IsInt z) :
    ({ e with nlinks := z } : Dinode).Ints := by
  obtain ⟨h1, h2, -, hrest⟩ := ints_iff.1 h
  exact ints_iff.2 ⟨h1, h2, hz, hrest⟩

theorem Inv.setNlinks (h : Inv D a) (hV : a.vinodes v = some V) (hr : V.host = false) (ht : v ∉ D.loose)
    (hn : V.inum = n) (hf : V.type = FILE_I) {z : ℤ} (hz : IsInt z) :
    Inv { D with memory := update D.memory n (D.memory n + (z - V.nlinks)) }
      { a with vinodes := update a.vinodes v (some { V with nlinks := z }) } := by
  obtain ⟨-, hlive, hs, hints, hcur⟩ := h.cachedAt hV hr ht hn
  have hshape := h.disk.shape n hlive
  rw [hcur] at hshape
  have hnot : V.type ≠ DIR_I := by
    rw [hf]
    decide
  have key := h.setVinode (W := { V with nlinks := z }) (b := 0) (j := 0) hV hr ht hn rfl hr rfl (hints.nlinks hz)
    ⟨hs.type, fun hd => absurd hd hnot, hs.blocks, hs.addrs⟩ { hshape with } (fun _ hc => hc)
    fun _ hi => .inl ⟨hi, rfl⟩
  rw [update_add_zero (f := D.refs) (k := v) (Int.sub_self V.ref)] at key
  exact key

/-- no count is below what it counts -/
structure Fair (D : Debts) : Prop where
  links : ∀ n, 0 ≤ D.links n
  memory : ∀ n, 0 ≤ D.memory n
  refs : ∀ v, 0 ≤ D.refs v

def Debts.settle (D : Debts) (n : ℕ) : Debts :=
  { D with links := update D.links n (D.links n + D.memory n), memory := update D.memory n 0 }

theorem settle_none : Debts.none.settle n = Debts.none := by
  unfold Debts.settle Debts.none
  simp

theorem update_nonneg {f : ℕ → ℤ} {z : ℤ} (h : ∀ x, 0 ≤ f x) (hz : 0 ≤ z) (x : ℕ) : 0 ≤ update f n z x := by
  by_cases hx : x = n
  · rwa [hx, update_self]
  · rw [update_of_ne hx]
    exact h x

theorem Fair.settle (h : Fair D) : Fair (D.settle n) :=
  ⟨update_nonneg h.links (add_nonneg (h.links n) (h.memory n)), update_nonneg h.memory le_rfl, h.refs⟩

def Afs.linking (a : Afs) (w : ℕ) (W : Vinode) (k : ℕ) (name : CString) (v : ℕ) (V : Vinode) (n : ℕ) : Afs :=
  Afs.putDir { a with vinodes := update a.vinodes v (some { V with nlinks := V.nlinks + 1 }) } w W k
    (a.dir k ++ [⟨name, (n : ℤ)⟩])

def Afs.linked (a : Afs) (w : ℕ) (W : Vinode) (k : ℕ) (name : CString) (v : ℕ) (V : Vinode) (n : ℕ) : Afs :=
  { a.linking w W k name v V n with
    dinode := update (a.linking w W k name v V n).dinode n { V.toDinode with nlinks := V.nlinks + 1 } }

theorem file_ne_dir (hV : a.vinodes v = some V) (hW : a.vinodes w = some W) (hf : V.type = FILE_I)
    (hd : W.type = DIR_I) :
    w ≠ v := by
  rintro rfl
  cases hV.symm.trans hW
  rw [hf] at hd
  cases hd

theorem Tidy.linked (h : Tidy D a) (hV : a.vinodes v = some V) (hVr : V.host = false) (hn : V.inum = n)
    (hf : V.type = FILE_I)
    (hz : IsInt (V.nlinks + 1)) (ho : Opening D a up w W k name) : Tidy (D.settle n) (a.linked w W k name v V n) := by
  have hwv := file_ne_dir hV ho.node.vinode hf ho.type
  obtain ⟨hh, hlive, hs, hints, -⟩ := h.inv.cachedAt hV hVr h.tight hn
  have htype : (a.dinode n).type = FILE_I := hs.type.symm.trans hf
  have hnot : ∀ {m : ℕ}, (a.dinode m).type = DIR_I → m ≠ n := by
    rintro m hm rfl
    rw [htype] at hm
    cases hm
  have hmem := h.inv.count.memory v V n hV hVr h.tight hf hn
  have h1 := h.inv.setNlinks hV hVr h.tight hn hf hz
  have h2 := h1.addEntry (w := w) (W := W) (k := k)
    ((update_of_ne hwv _ _).trans ho.node.vinode) ho.node.rfs h.tight ho.inum ho.type
    ho.room ho.short hlive (fun hd => absurd rfl (hnot hd)) (hnot h.inv.disk.root).symm
  have hints' : ({ V.toDinode with nlinks := V.nlinks + 1 } : Dinode).Ints := hints.nlinks hz
  have h3 := h2.setDinode (v := v) (V := { V with nlinks := V.nlinks + 1 }) (n := n)
    ((update_of_ne hwv.symm _ _).trans (update_self _ _ _)) hVr h.tight hn hf hints' hf le_rfl fun _ _ => rfl
  obtain ⟨-, -, hWs, -⟩ := ho.node.cachedAt h.inv ho.inum
  have hkn : k ≠ n := hnot (hWs.type.symm.trans ho.type)
  have hdn : (Afs.putDir { a with vinodes := update a.vinodes v (some { V with nlinks := V.nlinks + 1 }) } w W k
    (a.dir k ++ [⟨name, (n : ℤ)⟩])).dinode n = a.dinode n := update_of_ne hkn.symm _ _
  refine ⟨h3.debts rfl rfl ?_ ?_ fun _ _ _ _ _ => rfl, h.stray, h.loose, h.refs, ?_, ?_⟩
  · intro m _
    rw [hdn]
    simp only [Debts.settle, update_idem, update_self]
    exact congrFun (congrArg (update _ n) (by omega)) m
  · intro x X m _ _ _ _ _
    rw [hdn]
    simp only [Debts.settle, update_idem, update_self]
    exact congrFun (congrArg (update _ n) (by omega)) m
  · intro m hm
    by_cases hmn : m = n
    · subst hmn
      exact update_self _ _ _
    · exact (update_of_ne hmn _ _).trans (h.memory m hm)
  · intro m hm
    have hmn : m ≠ n := by
      rintro rfl
      have hself : (a.linked w W k name v V m).dinode m = { V.toDinode with nlinks := V.nlinks + 1 } :=
        update_self _ _ _
      rw [hself] at hm
      exact hm hf
    refine (update_of_ne hmn _ _).trans (h.links m fun hmf => hm ?_)
    have hmk : m ≠ k := by
      rintro rfl
      rw [← hWs.type, ho.type] at hmf
      cases hmf
    show (update (update a.dinode k _) n _ m).type = FILE_I
    rw [update_of_ne hmn, update_of_ne hmk]
    exact hmf

theorem rfsWriteBackVinode_file {U : Unit → Afs → Prop} (hV : a.vinodes v = some V) (hn : V.inum = n)
    (hlt : n < NINODES) (hints : V.Ints) (hf : V.type = FILE_I) (hblk : DirBlocks a) (hnil : a.dir n = [])
    (hU : U () { a with dinode := update a.dinode n V.toDinode }) : Spec abs E a (rfsWriteBackVinode v) U := by
  apply vinodeAt_spec hV
  rw [hn]
  refine rfsWriteDinode_file hlt hints hblk ?_ hnil hU
  rw [hf]
  decide

theorem DirBlocks.resize (h : DirBlocks a) (hF : Folder a w W k) {z : ℤ}
    (hd : a'.dinode = update a.dinode k { W.toDinode with size := z }) : DirBlocks a' := by
  intro m hm
  rw [hd] at hm ⊢
  by_cases hmk : m = k
  · subst hmk
    rw [update_self]
    exact hF.block
  · rw [update_of_ne hmk] at hm ⊢
    exact h m hm

def Afs.halfLinked (a : Afs) (name : CString) (v : ℕ) (V : Vinode) (up : ℕ) : Afs :=
  { a with
    dentries := update a.dentries a.next (some ⟨name, 0, some v, some up⟩)
    next := a.next + 1
    vinodes := update a.vinodes v (some { V with ref := V.ref + 1, nlinks := V.nlinks + 1 }) }

theorem linkBody_spec {old : ℕ} (hE : Mild E) (h : Tidy D a)
    (hold : Node D a old v V) (hf : V.type = FILE_I) (hn : V.inum = n) (hT : Target D a r up k name)
    (hQ : ∀ w W, Opening D a up w W k name → IsInt (V.nlinks + 1) →
      Q true ((a.linked w W k name v V n).hang a.next v { V with nlinks := V.nlinks + 1 } up name (a.next + 1)))
    (hQ' : (a.dinode k).type ≠ DIR_I → IsInt (V.nlinks + 1) → Q false (a.halfLinked name v V up)) :
    Spec abs E a (do
      let link_node ← inodeOf old
      let d ← allocVfsDentry name (some link_node) r.parent
      if ← rfsLink (← parentInode r) name link_node then
        hashPutDentry d
        return true
      else return false) Q := by
  obtain ⟨w, W, hN, hk⟩ := hT.node
  obtain ⟨-, -, hsync, -⟩ := hN.cachedAt h.inv hk
  obtain ⟨-, hlive, hVs, hints, -⟩ := hold.cachedAt h.inv hn
  obtain ⟨Old, hOld, hv⟩ := hold.dentry
  apply inodeOf_spec hOld hv
  apply Spec.seq
  rw [hT.parent]
  apply allocVfsDentry_inode hold.vinode
  -- the parent may be the linked file itself
  have hparent : ∀ X : Vinode, X.type = V.type → X.host = false → ∃ X',
      update a.vinodes v (some X) w = some X' ∧ X'.type = W.type ∧ X'.host = false := by
    intro X hXt hXh
    by_cases hwv : w = v
    · subst hwv
      cases hold.vinode.symm.trans hN.vinode
      exact ⟨X, update_self _ _ _, hXt, hXh⟩
    · exact ⟨W, (update_of_ne hwv _ _).trans hN.vinode, rfl, hN.rfs⟩
  obtain ⟨Up, hUp', hw⟩ := hN.dentry
  obtain ⟨X, hX, -, hXh⟩ := hparent { V with ref := V.ref + 1 } rfl hold.rfs
  apply Spec.seq
  refine parentInode_spec (D := D) (W := X) hT.parent
    ⟨⟨Up, (update_of_ne (h.inv.dentry_lt hUp').ne _ _).trans hUp', hw⟩, hN.hashed, hX, hXh, h.tight⟩ ?_
  apply Spec.seq
  refine vinodeAt_spec (V := { V with ref := V.ref + 1 }) (update_self _ _ _) ?_
  by_cases hmax : V.nlinks = 2147483647
  · rw [if_pos hmax]
    exact Spec.seq (spec_throw (hE _ (by simp)))
  rw [if_neg hmax]
  have hz : IsInt (V.nlinks + 1) := by
    obtain ⟨-, -, ⟨h1, h2⟩, -⟩ := ints_iff.1 hints
    constructor <;> omega
  apply Spec.seq
  apply setVinode_spec
  apply Spec.seq
  by_cases ht : W.type = DIR_I
  · have ho := hT.opening h hN hk ht
    have hwv := file_ne_dir hold.vinode hN.vinode hf ht
    have hnlt : n < 320 := h.inv.disk.live_lt n hlive
    have htype : (a.dinode n).type = FILE_I := hVs.type.symm.trans hf
    have hkn : n ≠ k := by
      rintro rfl
      rw [← hsync.type, ht] at htype
      cases htype
    have hF := h.inv.folder hN.vinode hN.rfs hN.tight ht hk
    refine rfsAddDirentry_put (hF.congr ?_ rfl rfl) h.inv.dirBlocks ho.room ho.short hn hnlt ?_
    · exact (update_of_ne hwv _ _).trans (update_of_ne hwv _ _)
    apply Spec.seq
    refine rfsWriteBackVinode_file (V := { V with ref := V.ref + 1, nlinks := V.nlinks + 1 }) ?_ hn hnlt
      (hints.nlinks hz) hf ?_ ?_ ?_
    · exact (update_of_ne hwv.symm _ _).trans (update_self _ _ _)
    · exact h.inv.dirBlocks.resize hF rfl
    · exact (update_of_ne hkn _ _).trans (h.inv.disk.nil n (by rw [htype]; decide))
    apply spec_pure
    apply Spec.seq
    refine hashPutDentry_spec (D := ⟨name, 0, some v, some up⟩) (update_self _ _ _) hT.unhashed ?_
    apply spec_pure
    refine (congrArg (Q true) ?_).mp (hQ w W ho hz)
    unfold Afs.linked Afs.linking Afs.hang Afs.putDir
    simp only [update_idem]
    rw [update_comm hwv, update_idem]
  · obtain ⟨X', hX', hXt', -⟩ := hparent { V with ref := V.ref + 1, nlinks := V.nlinks + 1 } rfl hold.rfs
    rw [update_idem]
    refine rfsAddDirentry_file hX' (by rwa [hXt']) ?_
    apply spec_pure
    apply spec_pure
    exact hQ' (fun hd => ht (hsync.type.trans hd)) hz

/-! ## The states after a new entry -/

theorem Opening.found {i : ℤ} (ho : Opening D a up w W k name) (hd : a'.dir k = a.dir k ++ [⟨name, i⟩]) :
    a'.find k name = some i := by
  have hnone : (a.dir k).find? (·.name = name) = none := Option.map_eq_none_iff.1 ho.new
  unfold Afs.find
  rw [hd, List.find?_append, hnone]
  simp

theorem Tidy.created {type : ℤ} (h : Tidy D a) (hv : Vacant a m b) (ht : type = FILE_I ∨ type = DIR_I)
    (ho : Opening D a up w W k name) :
    Tidy D (a.created w W k name m b type up) ∧
      Grows (a.make w W k name m b type) (a.created w W k name m b type up) := by
  obtain ⟨-, hlivek, -⟩ := ho.node.cachedAt h.inv ho.inum
  have hmake := h.make hv ht ho
  have hlive : Live (a.make w W k name m b type) m := by
    have hd : (a.make w W k name m b type).dinode m = (a.dinode m).fresh b type :=
      (update_of_ne (hv.ne hlivek) _ _).trans (update_self _ _ _)
    apply live_of_type
    rw [hd]
    exact ht
  have hdir : DirAt D (a.make w W k name m b type) up k :=
    ⟨w, _, { ho.node with vinode := update_self _ _ _ }, ho.type, ho.inum⟩
  exact hmake.hangNew hlive (h.inv.unhashed_of_free hv.inode) hdir ho.unhashed (ho.found (update_self _ _ _))
    (Nat.lt_succ_self _) (Nat.lt_succ_self _)

theorem Tidy.linkedHung (h : Tidy D a) (hV : a.vinodes v = some V) (hVr : V.host = false) (hn : V.inum = n)
    (hf : V.type = FILE_I) (hz : IsInt (V.nlinks + 1)) (ho : Opening D a up w W k name) :
    Tidy (D.settle n) ((a.linked w W k name v V n).hang a.next v
      { V with nlinks := V.nlinks + 1 } up name (a.next + 1)) ∧
      Grows (a.linked w W k name v V n)
        ((a.linked w W k name v V n).hang a.next v { V with nlinks := V.nlinks + 1 } up name (a.next + 1)) := by
  have hwv := file_ne_dir hV ho.node.vinode hf ho.type
  have hdir : DirAt (D.settle n) (a.linked w W k name v V n) up k :=
    ⟨w, _, { ho.node with vinode := update_self _ _ _ }, ho.type, ho.inum⟩
  refine (h.linked hV hVr hn hf hz ho).hang ?_ hVr hdir ho.unhashed ?_ (Nat.lt_succ_self _)
  · exact (update_of_ne hwv.symm _ _).trans (update_self _ _ _)
  · rw [ho.found (update_self _ _ _), ← hn]

def Debts.halfLink (D : Debts) (n v d : ℕ) : Debts :=
  { D with
    memory := update D.memory n (D.memory n + 1)
    refs := update D.refs v (D.refs v + 1)
    stray := D.stray ∪ {d} }

theorem Fair.halfLink (h : Fair D) : Fair (D.halfLink n v d) :=
  ⟨h.links, update_nonneg h.memory (add_nonneg (h.memory n) zero_le_one),
    update_nonneg h.refs (add_nonneg (h.refs v) zero_le_one)⟩

theorem Tidy.halfLinked (h : Tidy D a) (hV : a.vinodes v = some V) (hVr : V.host = false) (hn : V.inum = n)
    (hf : V.type = FILE_I) (hz : IsInt (V.nlinks + 1)) : Tidy (D.halfLink n v a.next) (a.halfLinked name v V up) := by
  obtain ⟨hh, -⟩ := h.inv.cachedAt hV hVr h.tight hn
  have hv := h.inv.vinode_lt hV
  refine ⟨?_, ?_, h.loose, ?_, ?_, h.links⟩
  · have h1 :=
      h.inv.setStray (d := a.next) (o := some ⟨name, 0, some v, some up⟩) (S := D.stray ∪ {a.next}) (.inr le_rfl)
      (fun x hx => by simp [hx]) (.inr (.inr rfl)) (Nat.le_succ _) (Nat.lt_succ_self _)
    have h2 := h1.addRef (V := V) hV hVr h.tight 1
    have h3 := h2.setNlinks (V := { V with ref := V.ref + 1 }) (update_self _ _ _) hVr h.tight hn hf hz
    simp only [update_idem, show V.nlinks + 1 - V.nlinks = 1 by omega] at h3
    exact h3
  · rintro x (hx | hx)
    · exact (h.stray x hx).trans (Nat.lt_succ_self _)
    · rw [hx]
      exact Nat.lt_succ_self _
  · intro x hx
    have hx : a.next + 1 ≤ x := hx
    exact (update_of_ne (by omega) _ _).trans (h.refs x (by omega))
  · intro m hm
    have hmn : m ≠ n := hash_ne hh hm
    exact (update_of_ne hmn _ _).trans (h.memory m hm)

end RiscvPke.Fs
