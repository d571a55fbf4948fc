/-
The calls that take something away: `vfs_unlink` and `vfs_close`.
-/
import RiscvPke.Fs.Entries

namespace RiscvPke.Fs

open Function CData RiscvPke.Count Run

variable {D : Debts} {a a' : Afs} {n m v w d p k b up i : ℕ} {V W : Vinode} {De : Dentry} {E : Fault → Prop} {l : Loc}
  {name : CString}

/-! ## An entry less -/

theorem linksIn_eraseIdx {l : List Entry} {e : Entry} (h : l[i]? = some e) (hn : e.inum = n) :
    linksIn (l.eraseIdx i) m + (if m = n then 1 else 0) = linksIn l m := by
  induction l generalizing i with
  | nil => cases h
  | cons x l ih =>
    unfold linksIn at *
    cases i with
    | zero => grind
    | succ i =>
      grind

theorem find_eraseIdx {l : List Entry} {nm : CString} (h : l.findIdx? (·.name = name) = some i) (hne : nm ≠ name) :
    (l.eraseIdx i).find? (·.name = nm) = l.find? (·.name = nm) := by
  induction l generalizing i with
  | nil => cases h
  | cons x l ih =>
    rw [List.findIdx?_cons] at h
    by_cases hx : x.name = name
    · simp only [hx, decide_true, if_true] at h
      grind
    · simp only [hx, decide_false, Bool.false_eq_true, if_false] at h
      obtain ⟨j, hj, rfl⟩ := Option.map_eq_some_iff.1 h
      rw [List.eraseIdx_cons_succ, List.find?_cons, List.find?_cons, ih hj]

def Afs.dropped (a : Afs) (d : ℕ) (De : Dentry) (v : ℕ) (V : Vinode) : Afs :=
  { a with
    dentry_hash := update a.dentry_hash (De.parent, De.name) none
    dentries := update a.dentries d none
    vinodes := update a.vinodes v (some { V with ref := V.ref - 1 }) }

theorem Inv.dropped (h : Inv D a) (hN : Node D a d v V) (hf : V.type = FILE_I) (hDe : a.dentries d = some De) :
    Inv D (a.dropped d De v V) := by
  have h1 := h.dropDentry hN (by rw [hf]; decide) hDe
  have h2 := h1.addRef (V := V) hN.vinode hN.rfs hN.tight (-1)
  refine h2.debts rfl rfl (fun _ _ => rfl) (fun _ _ _ _ _ _ _ _ => rfl) ?_
  intro x X _ _ _
  by_cases hx : x = v
  · subst hx
    simp only [update_self]
    omega
  · simp only [update_of_ne hx]

/-- a dentry `d` of a file, below the directory `k`, with its entry at the index `i` -/
structure Named (D : Debts) (a : Afs) (d : ℕ) (De : Dentry) (v : ℕ) (V : Vinode) (n up w : ℕ) (W : Vinode)
    (k i : ℕ) : Prop where
  node : Node D a d v V
  dentry : a.dentries d = some De
  file : V.type = FILE_I
  inum : V.inum = n
  parent : De.parent = some up
  above : Node D a up w W
  dir : W.type = DIR_I
  dir_inum : W.inum = k
  index : (a.dir k).findIdx? (·.name = De.name) = some i
  entry : ∃ e, (a.dir k)[i]? = some e ∧ e.inum = n

def Afs.unnamed (a : Afs) (d : ℕ) (De : Dentry) (v : ℕ) (V : Vinode) (w : ℕ) (W : Vinode) (k i : ℕ) : Afs :=
  Afs.putDir
    { a with
      dentry_hash := update a.dentry_hash (De.parent, De.name) none
      dentries := update a.dentries d none
      vinodes := update a.vinodes v (some { V with ref := V.ref - 1 }) }
    w W k ((a.dir k).eraseIdx i)

theorem Named.ne (h : Named D a d De v V n up w W k i) : w ≠ v := by
  rintro rfl
  have hdir := h.dir
  rw [← Option.some.inj (h.node.vinode.symm.trans h.above.vinode), h.file] at hdir
  cases hdir

section

variable (hx : Named D a d De v V n up w W k i)

include hx

theorem Named.unnamed (h : Inv D a) :
    Inv { D with links := update D.links n (D.links n + 1) } (a.unnamed d De v V w W k i) := by
  obtain ⟨e, he, hei⟩ := hx.entry
  have h1 := h.dropped hx.node hx.file hx.dentry
  have hdir : (a.dropped d De v V).dir = a.dir := rfl
  have hlen := (h.folder hx.above.vinode hx.above.rfs hx.above.tight hx.dir hx.dir_inum).length
  have hW : (a.dropped d De v V).vinodes w = some W := (update_of_ne hx.ne _ _).trans hx.above.vinode
  have hlinks : ∀ m, linksIn ((a.dir k).eraseIdx i) m + (if m = n then 1 else 0) = linksIn (a.dir k) m := fun m =>
    linksIn_eraseIdx he hei
  have h2 := h1.rewriteDir hW hx.above.rfs hx.above.tight hx.dir_inum hx.dir (l := (a.dir k).eraseIdx i) ?_ ?_ ?_ ?_ ?_
  · refine h2.debts rfl rfl ?_ (fun _ _ _ _ _ _ _ _ => rfl) fun _ _ _ _ _ => rfl
    intro m _
    have := hlinks m
    by_cases hm : m = n
    · grind
    · rw [if_neg hm] at this
      simp only [update_of_ne hm, hdir]
      omega
  · exact (List.length_eraseIdx_le _ _).trans hlen
  · intro e he
    exact h.disk.entries k e (List.mem_of_mem_eraseIdx he)
  · intro up' nm x d' hk hat hfind
    have hback : DirAt D a up' k := by
      obtain ⟨x, X, hN, hXt, hXi⟩ := hat
      obtain ⟨Up, hUp, hx'⟩ := hN.dentry
      rcases update_cases hUp with ⟨-, hO⟩ | ⟨-, hUp⟩
      · cases hO
      rcases update_cases hN.vinode with ⟨-, hO⟩ | ⟨-, hX⟩
      · cases hO
        exact absurd (hx.file.symm.trans hXt) (by decide)
      · exact ⟨x, X, ⟨⟨Up, hUp, hx'⟩, hN.hashed, hX, hN.rfs, hN.tight⟩, hXt, hXi⟩
    have hne : nm ≠ De.name := by
      rintro rfl
      obtain rfl := h.dirs.unique up' up k hback ⟨w, W, hx.above, hx.dir, hx.dir_inum⟩
      rw [Afs.dropped, hx.parent] at hk
      simp only [update_self] at hk
      cases hk
    rw [find_eraseIdx hx.index hne]
    exact hfind
  · intro m hm
    have h4 := h.dirs.links m hm
    have h5 := hlinks m
    have h6 : (a.dropped d De v V).links m = a.links m := rfl
    grind [linksIn]
  · have := hlinks 0
    show linksIn ((a.dir k).eraseIdx i) 0 ≤ linksIn (a.dir k) 0
    omega

theorem Named.cached (h : Inv D a) :
    Live a n ∧ (a.dinode n).type = FILE_I ∧ Synced V.toDinode (a.dinode n) ∧ a.vinode_hash n = some v ∧ k ≠ n := by
  obtain ⟨hh, hlive, hs, -⟩ := hx.node.cachedAt h hx.inum
  obtain ⟨-, -, hWs, -⟩ := hx.above.cachedAt h hx.dir_inum
  have htype : (a.dinode n).type = FILE_I := hs.type.symm.trans hx.file
  refine ⟨hlive, htype, hs, hh, ?_⟩
  rintro rfl
  rw [← hWs.type, hx.dir] at htype
  cases htype

def Afs.unlinkedLast (a : Afs) (d : ℕ) (De : Dentry) (v : ℕ) (V : Vinode) (n w : ℕ) (W : Vinode) (k i : ℕ) : Afs :=
  (a.unnamed d De v V w W k i).remove v n ((a.dinode n).release (a.dinode n).blocks a.used) (a.dinode n).unlinked

def Afs.unlinkedMore (a : Afs) (d : ℕ) (De : Dentry) (v : ℕ) (V : Vinode) (n w : ℕ) (W : Vinode) (k i : ℕ) : Afs :=
  { a.unnamed d De v V w W k i with
    vinodes := update (a.unnamed d De v V w W k i).vinodes v (some { V with ref := V.ref - 1, nlinks := V.nlinks - 1 })
    dinode := update (a.unnamed d De v V w W k i).dinode n (a.dinode n).unlinked }

theorem Named.memory_zero (h : Tidy D a) (hmem : V.nlinks = (a.dinode n).nlinks) : D.memory n = 0 := by
  have := h.inv.count.memory v V n hx.node.vinode hx.node.rfs hx.node.tight hx.file hx.inum
  omega

theorem Named.links_pos (h : Tidy D a) (hfair : Fair D) : 1 ≤ (a.dinode n).nlinks := by
  obtain ⟨e, he, hei⟩ := hx.entry
  obtain ⟨-, htype, -⟩ := hx.cached h.inv
  have hcount := h.inv.count.links n htype
  have hpos : a.links n ≠ 0 := by
    intro h0
    have hmem := List.mem_of_getElem? he
    exact links_eq_zero h0 (dir_lt_of_mem h.inv.disk hmem) hmem hei
  have := hfair.links n
  omega

theorem Named.unnamed_vinode : (a.unnamed d De v V w W k i).vinodes v = some { V with ref := V.ref - 1 } :=
  (update_of_ne hx.ne.symm _ _).trans (update_self _ _ _)

theorem Named.unnamed_dinode (h : Inv D a) : (a.unnamed d De v V w W k i).dinode n = a.dinode n :=
  update_of_ne (hx.cached h).2.2.2.2.symm _ _

theorem Named.unnamed_type (h : Inv D a) : ((a.unnamed d De v V w W k i).dinode m).type = (a.dinode m).type := by
  obtain ⟨-, -, hWs, -⟩ := hx.above.cachedAt h hx.dir_inum
  by_cases hm : m = k
  · rw [hm, ← hWs.type]
    show (update a.dinode k { W.toDinode with size := _ } k).type = W.type
    rw [update_self]
  · exact congrArg Dinode.type (update_of_ne hm _ _)

theorem Named.unlinkedMore (h : Tidy D a) (hfair : Fair D)
    (hmem : V.nlinks = (a.dinode n).nlinks) (hmore : V.nlinks ≠ 1) : Tidy D (a.unlinkedMore d De v V n w W k i) := by
  obtain ⟨hlive, htype, hs, hh, hkn⟩ := hx.cached h.inv
  have hpos := hx.links_pos h hfair
  obtain ⟨-, -, -, hints, -⟩ := hx.node.cachedAt h.inv hx.inum
  have hz : IsInt (V.nlinks - 1) := by
    obtain ⟨-, -, ⟨h1, h2⟩, -⟩ := ints_iff.1 hints
    constructor <;> omega
  have hun : (a.dinode n).unlinked = { a.dinode n with nlinks := (a.dinode n).nlinks - 1 } := by
    unfold Dinode.unlinked
    rw [if_neg (by rwa [← hmem])]
  have hintsU : (a.dinode n).unlinked.Ints := (h.inv.disk.ints n).unlinked hpos
  have hd := hx.unnamed_dinode h.inv
  have h1 := hx.unnamed h.inv
  have h2 := h1.setNlinks hx.unnamed_vinode hx.node.rfs hx.node.tight hx.inum hx.file hz
  have h3 :=
    h2.setDinode (update_self _ _ _) hx.node.rfs hx.node.tight hx.inum hx.file hintsU (by rw [hun]; exact htype)
    (by rw [hun]; exact hs.blocks) (by rw [hun]; exact hs.addrs)
  refine ⟨h3.debts rfl rfl ?_ ?_ fun _ _ _ _ _ => rfl, h.stray, h.loose, h.refs, h.memory, ?_⟩
  · intro m _
    grind
  · intro x X m _ _ _ _ _
    by_cases hm : m = n
    · subst hm
      simp only [update_self, hd, hun]
      omega
    · simp only [update_of_ne hm]
  · intro m hm
    apply h.links
    intro hmf
    apply hm
    by_cases hmn : m = n
    · subst hmn
      have hself : (a.unlinkedMore d De v V m w W k i).dinode m = (a.dinode m).unlinked := update_self _ _ _
      rw [hself, hun]
      exact htype
    · have hother : (a.unlinkedMore d De v V n w W k i).dinode m = (a.unnamed d De v V w W k i).dinode m :=
        update_of_ne hmn _ _
      rw [hother, hx.unnamed_type h.inv]
      exact hmf

omit hx in
theorem Inv.unheld (h : Inv D a) (hV : a.vinodes v = some V) (hr : V.host = false) (hn : V.inum = n)
    (hf : V.type = FILE_I)
    (ht : v ∉ D.loose) (hlinks : a.links n = 0) (key : Option ℕ × CString) : a.holder key ≠ some v := by
  intro hk
  obtain ⟨d, hd, hk⟩ := Option.bind_eq_some_iff.1 hk
  obtain ⟨De, hDe, hk⟩ := Option.bind_eq_some_iff.1 hk
  obtain ⟨hst, -⟩ := h.tree.hashed key d hd
  rcases (h.tree.placed d De hDe hst).2 with ⟨-, -, x, X, hx, hX, hh, -⟩ | ⟨up, x, X, -, -, hN, hplace⟩
  · grind
  · cases hk.symm.trans (hN.inode hDe)
    cases hV.symm.trans hN.vinode
    rcases hplace with ⟨-, -, h0⟩ | ⟨-, p, -, hfind⟩
    · obtain rfl : n = 0 := by omega
      obtain ⟨-, -, hs, -⟩ := h.cachedAt hV hr ht hn
      have := h.disk.root
      rw [← hs.type, hf] at this
      cases this
    · obtain ⟨e, he, -, hi⟩ := find_mem hfind
      exact links_eq_zero hlinks (dir_lt_of_mem h.disk he) he (hi.trans hn)

variable (h : Tidy D a) (hfair : Fair D) (hmem : V.nlinks = (a.dinode n).nlinks) (hlast : V.nlinks = 1)

include h hfair hmem hlast

theorem Named.links_zero : (a.unnamed d De v V w W k i).links n = 0 ∧ D.links n = 0 := by
  obtain ⟨-, htype, -⟩ := hx.cached h.inv
  have hd := hx.unnamed_dinode h.inv
  have hcount := (hx.unnamed h.inv).count.links n (by rw [hd]; exact htype)
  have hnlinks := hfair.links n
  rw [hd, ← hmem, hlast] at hcount
  simp only [update_self] at hcount
  omega

theorem Named.unlinkedLast : Tidy D (a.unlinkedLast d De v V n w W k i) := by
  obtain ⟨-, -, hs, -⟩ := hx.cached h.inv
  have hpos := hx.links_pos h hfair
  have h1 := hx.unnamed h.inv
  obtain ⟨hlinks, hdebt⟩ := hx.links_zero h hfair hmem hlast
  have hun : (a.dinode n).unlinked = { a.dinode n with nlinks := 0, type := R_FREE } := by
    unfold Dinode.unlinked
    rw [if_pos (hmem.symm.trans hlast)]
  have hintsU : (a.dinode n).unlinked.Ints := (h.inv.disk.ints n).unlinked hpos
  have hno := h1.unheld hx.unnamed_vinode hx.node.rfs hx.inum hx.file hx.node.tight hlinks
  have h2 :=
    h1.freeInode (u := (a.dinode n).release (a.dinode n).blocks a.used) hx.unnamed_vinode hx.node.rfs
      hx.node.tight hx.inum
    hx.file hno hlinks hintsU (by rw [hun]) ?_
  · refine ⟨h2.debts rfl rfl ?_ (fun _ _ _ _ _ _ _ _ => rfl) fun _ _ _ _ _ => rfl, h.stray, h.loose, h.refs, ?_, ?_⟩
    · intro m hm
      have hmn : m ≠ n := by
        rintro rfl
        have hself : ((a.unnamed d De v V w W k i).remove v m ((a.dinode m).release (a.dinode m).blocks a.used)
          (a.dinode m).unlinked).dinode m = (a.dinode m).unlinked := update_self _ _ _
        rw [hself, hun] at hm
        cases hm
      exact (update_of_ne hmn _ _).symm
    · intro m hm
      by_cases hmn : m = n
      · rw [hmn]
        exact hx.memory_zero h hmem
      · have hmn' : (m : ℤ) ≠ n := by omega
        exact h.memory m ((update_of_ne hmn' _ _).symm.trans hm)
    · intro m hm
      by_cases hmn : m = n
      · rw [hmn]
        exact hdebt
      · apply h.links
        intro hmf
        have hother : (a.unlinkedLast d De v V n w W k i).dinode m = (a.unnamed d De v V w W k i).dinode m :=
          update_of_ne hmn _ _
        rw [hother, hx.unnamed_type h.inv] at hm
        exact hm hmf
  · intro c hused hc
    unfold Dinode.release
    rw [if_neg]
    · exact hused
    · rintro ⟨j, hj, hjc⟩
      have hjV : (j : ℤ) < V.blocks := lt_of_lt_of_le hj hs.blocks
      exact hc j hjV ((hs.addrs j hj).trans hjc)

theorem Named.ref_zero (hrefs : D.refs v = 0) : V.ref - 1 = 0 := by
  have h1 := hx.unnamed h.inv
  have hno := h1.unheld hx.unnamed_vinode hx.node.rfs hx.inum hx.file hx.node.tight (hx.links_zero h hfair hmem hlast).1
  obtain ⟨c, hc, hcr⟩ := h1.count.refs v _ hx.unnamed_vinode hx.node.rfs hx.node.tight
  obtain rfl := hc.unique (counted_zero hno)
  have hcr : V.ref - 1 = (0 : ℕ) + D.refs v := hcr
  omega

end

/-! ## The calls -/

theorem dropDentry_spec {U : Unit → Afs → Prop} (hDe : a.dentries d = some De) (href : De.d_ref ≤ 0)
    (hV : a.vinodes v = some V) (h : U () (a.dropped d De v V)) : Spec abs E a (dropDentry d v) U := by
  apply Spec.seq
  apply hashEraseDentry_spec hDe
  apply Spec.seq
  refine dentryAt_spec (D := De) (by exact hDe) ?_
  rw [if_pos href]
  apply freeDentry_spec
  refine vinodeAt_spec (V := V) (by exact hV) ?_
  exact setVinode_spec h

theorem dropVinode_spec {U : Unit → Afs → Prop} (hV : a.vinodes v = some V) (h0 : 0 ≤ V.inum) (h : U ()
      { a with
        vinode_hash := update a.vinode_hash V.inum none
        vinodes := update a.vinodes v none }) : Spec abs E a (dropVinode v) U := by
  apply Spec.seq
  apply hashEraseVinode_spec hV h0
  exact freeVinode_spec h

theorem putDir_eraseIdx (hW : W.size = 32 * ((a.dir k).length : ℤ)) (hi : i < (a.dir k).length) :
    a.putDir w W k ((a.dir k).eraseIdx i) =
      { a with
        vinodes := update a.vinodes w (some { W with size := W.size - 32 })
        dinode := update a.dinode k { W.toDinode with size := W.size - 32 }
        dir := update a.dir k ((a.dir k).eraseIdx i) } := by
  have : W.size - 32 = 32 * (((a.dir k).eraseIdx i).length : ℤ) := by
    rw [List.length_eraseIdx_of_lt hi, hW]
    omega
  rw [this]
  rfl

theorem unnamed_eq (hW : W.size = 32 * ((a.dir k).length : ℤ)) (hi : i < (a.dir k).length) :
    a.unnamed d De v V w W k i =
      { a with
        dentry_hash := update a.dentry_hash (De.parent, De.name) none
        dentries := update a.dentries d none
        vinodes := update (update a.vinodes v (some { V with ref := V.ref - 1 })) w
          (some { W with size := W.size - 32 })
        dinode := update a.dinode k { W.toDinode with size := W.size - 32 }
        dir := update a.dir k ((a.dir k).eraseIdx i) } :=
  putDir_eraseIdx (a := { a with dentry_hash := _, dentries := _, vinodes := _ }) hW hi

theorem update_forget {β : Type} {f : ℕ → β} {x y z : β} (h : w ≠ v) :
    update (update (update f v x) w y) v z = update (update f w y) v z := by
  rw [update_comm h.symm, update_idem]

theorem Folder.other (h : Folder a w W k) (hkn : k ≠ n) {e : Dinode} (he : e.type ≠ DIR_I)
    (hv : a'.vinodes w = a.vinodes w)
    (hdinode : a'.dinode = update a.dinode n e) (hdir : a'.dir = a.dir) : Folder a' w W k := by
  refine ⟨hv.trans h.at_w, h.inum, h.lt, h.type, ?_, ?_, ?_, h.block, h.blocks, ?_, ?_⟩
  · rw [hdinode, update_of_ne hkn]
    exact h.same
  · rw [hdir]
    exact h.size
  · rw [hdir]
    exact h.length
  · intro m hm hmt
    rw [hdinode] at hmt ⊢
    have hmn : m ≠ n := by
      rintro rfl
      rw [update_self] at hmt
      exact he hmt
    rw [update_of_ne hmn] at hmt ⊢
    exact h.alone m hm hmt
  · rw [hdir]
    exact h.names

theorem DirBlocks.other (h : DirBlocks a) {e : Dinode} (he : e.type ≠ DIR_I)
    (hdinode : a'.dinode = update a.dinode n e) : DirBlocks a' := by
  intro m hm
  rw [hdinode] at hm ⊢
  have hmn : m ≠ n := by
    rintro rfl
    rw [update_self] at hm
    exact he hm
  rw [update_of_ne hmn] at hm ⊢
  exact h m hm

theorem unlinked_type {e : Dinode} (he : e.type = FILE_I) : e.unlinked.type ≠ DIR_I := by
  unfold Dinode.unlinked
  split_ifs
  · show R_FREE ≠ DIR_I
    decide
  · rw [he]
    decide

theorem unlinkBody_spec {r : Looked} {Q : Bool → Afs → Prop}
    (hE : ∀ c, E (.stop (.assertion c)) ∨ D = Debts.none) (h : Tidy D a)
    (hfair : Fair D) (hN : Node D a d v V) (hDe : a.dentries d = some De) (href : De.d_ref ≤ 0) (hf : V.type = FILE_I)
    (hn : V.inum = n) (hpar : De.parent = some up) (hr : r.parent = some up) (hup : Node D a up w W)
    (hWt : W.type = DIR_I) (hk : W.inum = k) (hfind : a.find k De.name = some (n : ℤ))
    (hQ : ∀ i, Named D a d De v V n up w W k i → V.nlinks = (a.dinode n).nlinks →
      (V.nlinks ≠ 1 → Q true (a.unlinkedMore d De v V n w W k i)) ∧
      (V.nlinks = 1 → Q true (a.unlinkedLast d De v V n w W k i))) :
    Spec abs E a (do
      let v ← inodeOf d
      if ← rfsUnlink (← parentInode r) (← dentryAt d).name v then
        dropDentry d v
        let V ← vinodeAt v
        if V.nlinks = 0 then
          if V.ref ≠ 0 then stop (.assertion "unlinked_vinode->ref == 0")
          dropVinode v
        return true
      else return false) Q := by
  have hv := hN.inode hDe
  have hF := h.inv.folder hup.vinode hup.rfs hup.tight hWt hk
  apply inodeOf_spec hDe hv
  apply Spec.seq
  apply parentInode_spec hr hup
  apply dentryAt_spec hDe
  apply Spec.seq
  refine rfsUnlink_spec hF hfind fun i hi => ?_
  have hx : Named D a d De v V n up w W k i := by
    refine ⟨hN, hDe, hf, hn, hpar, hup, hWt, hk, hi, ?_⟩
    have := @find_of_findIdx De.name (a.dir k)
    unfold Afs.find at hfind
    grind
  obtain ⟨hlive, htype, hs, hh, hkn⟩ := hx.cached h.inv
  have hcur := cur_of_cached hh hN.vinode
  have hilt : i < (a.dir k).length := (List.findIdx?_eq_some_iff_findIdx_eq.1 hi).1
  have hwv := hx.ne
  have hut := unlinked_type htype
  apply Spec.seq
  refine dropLink_spec (h.inv.disk.live_lt n hlive) hN.vinode h.inv.dirBlocks (by rw [htype]; decide)
    (hx.links_pos h hfair) ?_ ?_ ?_ ?_
  · have := (h.inv.disk.shape n hlive).blocks
    rw [hcur] at this
    exact hs.blocks.trans this.2
  · intro j hj
    have := h.inv.disk.owned n j hlive
    rw [hcur] at this
    obtain ⟨c, hc, he, -⟩ := this (lt_of_lt_of_le hj hs.blocks)
    exact ⟨c, hc, (hs.addrs j hj).symm.trans he⟩
  · intro hne
    refine (hE _).resolve_right ?_
    rintro rfl
    exact hne ((h.inv.count.memory v V n hN.vinode hN.rfs hN.tight hf hn).trans (Int.add_zero _))
  intro hmem
  obtain ⟨hmore, hlast⟩ := hQ i hx hmem
  apply Spec.seq
  refine removeDirentry_spec (hF.other hkn hut (update_of_ne hwv _ _) rfl rfl) (h.inv.dirBlocks.other hut rfl) hilt ?_
  apply spec_pure
  apply Spec.seq
  refine dropDentry_spec (V := { V with nlinks := V.nlinks - 1 }) (by exact hDe) href ?_ ?_
  · exact (update_of_ne hwv.symm _ _).trans (update_self _ _ _)
  refine vinodeAt_spec (update_self _ _ _) ?_
  by_cases h1 : V.nlinks = 1
  · have h0 : V.nlinks - 1 = 0 := by omega
    simp only [if_pos h0, if_pos h1]
    by_cases href0 : V.ref - 1 = 0
    · rw [if_neg (not_not.2 href0)]
      apply Spec.seq
      refine dropVinode_spec (update_self _ _ _) (by rw [hn]; exact Int.natCast_nonneg n) ?_
      apply spec_pure
      refine (congrArg (Q true) ?_).mp (hlast h1)
      unfold Afs.unlinkedLast Afs.remove Afs.dropped
      rw [unnamed_eq hF.size hilt]
      simp only [update_forget hwv, update_idem, hn]
      rw [update_comm hkn]
    · rw [if_pos href0]
      refine Spec.seq (spec_throw ((hE _).resolve_right ?_))
      rintro rfl
      exact href0 (hx.ref_zero h hfair hmem h1 rfl)
  · have h0 : ¬ V.nlinks - 1 = 0 := by omega
    simp only [if_neg h0, if_neg h1]
    apply spec_pure
    refine (congrArg (Q true) ?_).mp (hmore h1)
    unfold Afs.unlinkedMore Afs.dropped
    rw [unnamed_eq hF.size hilt]
    simp only [update_forget hwv]
    rw [update_comm hkn]

def Afs.evicted (a : Afs) (v : ℕ) (V : Vinode) (n : ℕ) : Afs :=
  { a with
    dinode := update a.dinode n V.toDinode
    vinode_hash := update a.vinode_hash n none
    vinodes := update a.vinodes v none }

theorem Tidy.setDref (h : Tidy D a) (hDe : a.dentries d = some De) (z : ℤ) :
    Tidy D { a with dentries := update a.dentries d (some { De with d_ref := z }) } :=
  { h with inv := h.inv.setDref hDe z }

theorem Tidy.dropped (h : Tidy D a) (hN : Node D a d v V) (hf : V.type = FILE_I) (hDe : a.dentries d = some De) :
    Tidy D (a.dropped d De v V) :=
  { h with inv := h.inv.dropped hN hf hDe }

theorem Tidy.evicted (h : Tidy D a) (hfair : Fair D) (hV : a.vinodes v = some V) (hr : V.host = false) (hn : V.inum = n)
    (hf : V.type = FILE_I) (href : V.ref = 0) : Tidy (D.settle n) (a.evicted v V n) := by
  obtain ⟨n', hn', hh, hlive, hs, hints, hcur⟩ := h.inv.cached hV hr h.tight
  have hmem := h.inv.count.memory v V n hV hr h.tight hf hn
  have h1 := h.inv.setDinode hV hr h.tight hn hf hints hf le_rfl fun _ _ => rfl
  have h2 := h1.evict (V := V) hV hr h.tight hn (by simp only [update_self]) ?_
  · refine ⟨h2.debts rfl rfl ?_ ?_ fun _ _ _ _ _ => rfl, h.stray, h.loose, h.refs, ?_, ?_⟩
    · intro m _
      exact congrFun (congrArg (update _ n) (by omega)) m
    · intro x X m _ _ _ _ _
      exact congrFun (congrArg (update _ n) (by omega)) m
    · intro m hm
      by_cases hmn : m = n
      · subst hmn
        exact update_self _ _ _
      · have hmn' : (m : ℤ) ≠ n := by omega
        exact (update_of_ne hmn _ _).trans (h.memory m ((update_of_ne hmn' _ _).symm.trans hm))
    · intro m hm
      have hmn : m ≠ n := by
        rintro rfl
        exact hm ((congrArg Dinode.type (update_self _ _ _)).trans hf)
      refine (update_of_ne hmn _ _).trans (h.links m fun hmf => hm ?_)
      exact (congrArg Dinode.type (update_of_ne hmn _ _)).trans hmf
  · intro key hk
    obtain ⟨c, hc, hcr⟩ := h.inv.count.refs v V hV hr h.tight
    have := hc.pos hk
    have := hfair.refs v
    omega

theorem inodeOf_cases {α : Type} {g : ℕ → Vinode → F α} {Q : α → Afs → Prop} (h : Inv D a) (hd : d ∉ D.stray)
    (hE : a.dentries d = none → E .wildPointer)
    (hhost : ∀ De v V, a.dentries d = some De → a.vinodes v = some V → V.host = true → V.type = DIR_I →
      De.dentry_inode = some v →
      d = a.vfs_root_dentry → Spec abs E a (g v V) Q)
    (hnode : ∀ De v V n, a.dentries d = some De → Node D a d v V → De.dentry_inode = some v → V.inum = (n : ℕ) →
      Spec abs E a (g v V) Q) : Spec abs E a (inodeOf d >>= fun v => vinodeAt v >>= fun V => g v V) Q := by
  apply Spec.seq
  apply Spec.seq
  apply dentryAt_cases hE
  intro De hDe
  rcases (h.tree.placed d De hDe hd).2 with ⟨hroot, -, v, V, hv, hV, hh, ht⟩ | ⟨up, v, V, -, -, hN, -⟩
  · grind [spec_pure, Spec.seq, vinodeAt_spec]
  · have hv := hN.inode hDe
    obtain ⟨n, hn, -⟩ := h.cached hN.vinode hN.rfs hN.tight
    rw [hv]
    apply spec_pure
    apply vinodeAt_spec hN.vinode
    exact hnode De v V n hDe hN hv hn

theorem fileOf_cases {α : Type} {no : F α} {g : ℕ → Vinode → F α} {Q : α → Afs → Prop} (h : Inv D a) (hd : d ∉ D.stray)
    (hE : a.dentries d = none → E .wildPointer) (hno : Spec abs E a no Q)
    (hfile : ∀ De v V n, a.dentries d = some De → Node D a d v V → De.dentry_inode = some v → V.inum = (n : ℕ) →
      V.type = FILE_I →
      Spec abs E a (g v V) Q) :
    Spec abs E a (inodeOf d >>= fun v => vinodeAt v >>= fun V => if V.type ≠ FILE_I then no else g v V) Q := by
  apply inodeOf_cases h hd hE
  · intro De v V _ _ _ ht _ _
    rwa [if_pos (by rw [ht]; decide)]
  · intro De v V n hDe hN hv hn
    by_cases hf : V.type = FILE_I
    · rw [if_neg (not_not.2 hf)]
      exact hfile De v V n hDe hN hv hn hf
    · rwa [if_pos hf]

theorem vfsClose_spec {file : File} {Q : Bool → Afs → Prop} (hE : Mild E) (h : Tidy D a) (hd : file.f_dentry ∉ D.stray)
    (hfail : Q false a)
    (hQ : ∀ De v V n, Node D a file.f_dentry v V → a.dentries file.f_dentry = some De → V.type = FILE_I →
      V.inum = (n : ℕ) →
      (De.d_ref - 1 ≠ 0 → Q true
        { a with dentries := update a.dentries file.f_dentry (some { De with d_ref := De.d_ref - 1 }) }) ∧
      (V.ref - 1 ≠ 0 → Q true (a.dropped file.f_dentry De v V)) ∧
      (V.ref - 1 = 0 → Q true ((a.dropped file.f_dentry De v V).evicted v { V with ref := V.ref - 1 } n))) :
    Spec abs E a (vfsClose file) Q := by
  apply fileOf_cases h.inv hd (fun _ => hE _ (by simp)) (spec_pure hfail)
  intro De v V n hDe hN hv hn hf
  obtain ⟨hopen, hdrop, hevict⟩ := hQ De v V n hN hDe hf hn
  apply Spec.seq
  refine rfsInodeOf_spec hDe hv hN.vinode (fun hh => by rw [hN.rfs] at hh; cases hh) fun _ => ?_
  apply dentryAt_spec hDe
  apply Spec.seq
  apply setDentry_spec
  by_cases hlast : De.d_ref - 1 = 0
  · simp only [if_pos hlast]
    apply Spec.seq
    refine dropDentry_spec (update_self _ _ _) hlast.le (by exact hN.vinode) ?_
    refine vinodeAt_spec (update_self _ _ _) ?_
    by_cases href : V.ref - 1 = 0
    · simp only [if_pos href]
      obtain ⟨-, hlive, hs, hints, -⟩ := hN.cachedAt h.inv hn
      have hnil : a.dir n = [] := h.inv.disk.nil n (by rw [← hs.type, hf]; decide)
      apply Spec.seq
      refine rfsWriteBackVinode_file (update_self _ _ _) hn
        (h.inv.disk.live_lt n hlive) hints hf h.inv.dirBlocks hnil ?_
      apply Spec.seq
      refine dropVinode_spec (update_self _ _ _) (by rw [hn]; exact Int.natCast_nonneg n) ?_
      apply spec_pure
      refine (congrArg (Q true) ?_).mp (hevict href)
      unfold Afs.evicted Afs.dropped
      simp only [update_idem, hn]
    · simp only [if_neg href]
      apply spec_pure
      refine (congrArg (Q true) ?_).mp (hdrop href)
      unfold Afs.dropped
      simp only [update_idem]
  · simp only [if_neg hlast]
    exact spec_pure (hopen hlast)

end RiscvPke.Fs
