/-
What the functions of the model do to the reading of the state (`Afs`): one specification for each, in the form of a
rule that is applied backwards. A function that looks for an object that may be gone has a rule with the stop as a
second case.
-/
import RiscvPke.Fs.Disk

namespace RiscvPke.Fs

open Function CData Run

variable {s s' : St} {a : Afs} {d : Dinode} {n k v w p : ℕ} {V W : Vinode} {D : Dentry} {E : Fault → Prop}

/-! ## Objects -/

section

variable {Q : Vinode → Afs → Prop} {R : Dentry → Afs → Prop} {U : Unit → Afs → Prop} {N : ℕ → Afs → Prop}
  {α : Type} {T : α → Afs → Prop}

theorem vinodeAt_cases (hE : a.vinodes v = none → E .wildPointer) (hQ : ∀ V, a.vinodes v = some V → Q V a) :
    Spec abs E a (vinodeAt v) Q := by
  intro s hs
  subst hs
  unfold vinodeAt
  rw [run_get_bind]
  cases hv : s.vinodes v with
  | none => exact hE hv
  | some V => exact hQ V hv

theorem dentryAt_cases (hE : a.dentries n = none → E .wildPointer) (hR : ∀ D, a.dentries n = some D → R D a) :
    Spec abs E a (dentryAt n) R := by
  intro s hs
  subst hs
  unfold dentryAt
  rw [run_get_bind]
  cases hd : s.dentries n with
  | none => exact hE hd
  | some D => exact hR D hd

theorem vinodeAt_spec {g : Vinode → F α} (hv : a.vinodes v = some V) (h : Spec abs E a (g V) T) :
    Spec abs E a (vinodeAt v >>= g) T := by
  apply Spec.seq
  grind [vinodeAt_cases]

theorem dentryAt_spec {g : Dentry → F α} (hd : a.dentries n = some D) (h : Spec abs E a (g D) T) :
    Spec abs E a (dentryAt n >>= g) T := by
  apply Spec.seq
  grind [dentryAt_cases]

theorem setVinode_spec (h : U () { a with vinodes := update a.vinodes v (some V) }) :
    Spec abs E a (setVinode v V) U := by
  apply spec_modify
  rintro s rfl
  exact h

theorem setDentry_spec (h : U () { a with dentries := update a.dentries n (some D) }) :
    Spec abs E a (setDentry n D) U := by
  apply spec_modify
  rintro s rfl
  exact h

theorem freeVinode_spec (h : U () { a with vinodes := update a.vinodes v none }) :
    Spec abs E a (freeVinode v) U := by
  apply spec_modify
  rintro s rfl
  exact h

theorem freeDentry_spec (h : U () { a with dentries := update a.dentries n none }) :
    Spec abs E a (freeDentry n) U := by
  apply spec_modify
  rintro s rfl
  exact h

theorem allocVinode_spec (h : N a.next { a with vinodes := update a.vinodes a.next (some V), next := a.next + 1 }) :
    Spec abs E a (allocVinode V) N := by
  apply spec_get_bind
  rintro s rfl
  apply spec_set_bind
  exact spec_pure h

theorem setIobuffer_spec {b : Buf} (h : U () a) : Spec abs E a (setIobuffer b) U := by
  apply spec_modify
  rintro s rfl
  exact h

theorem setIobuffer_run {b : Buf} : setIobuffer b s = .ok ((), s.io b) := rfl

theorem refUp_spec (hv : a.vinodes v = some V)
    (h : U () { a with vinodes := update a.vinodes v (some { V with ref := V.ref + 1 }) }) :
    Spec abs E a (refUp v) U := by
  apply vinodeAt_spec hv
  exact setVinode_spec h

variable {name : CString}

theorem allocVfsDentry_spec {parent : Option ℕ}
    (h : N a.next { a with dentries := update a.dentries a.next (some ⟨name, 0, none, parent⟩), next := a.next + 1 }) :
    Spec abs E a (allocVfsDentry name none parent) N := by
  apply spec_get_bind
  rintro s rfl
  apply spec_set_bind
  exact spec_pure h

theorem allocVfsDentry_inode {parent : Option ℕ} (hv : a.vinodes v = some V) (h : N a.next
      { a with
        dentries := update a.dentries a.next (some ⟨name, 0, some v, parent⟩)
        next := a.next + 1
        vinodes := update a.vinodes v (some { V with ref := V.ref + 1 }) }) :
    Spec abs E a (allocVfsDentry name (some v) parent) N := by
  apply spec_get_bind
  rintro s rfl
  apply spec_set_bind
  apply Spec.seq
  refine refUp_spec (V := V) (by exact hv) ?_
  exact spec_pure h

theorem hashPutDentry_spec (hd : a.dentries n = some D) (hk : a.dentry_hash (D.parent, D.name) = none)
    (h : U () { a with dentry_hash := update a.dentry_hash (D.parent, D.name) (some n) }) :
    Spec abs E a (hashPutDentry n) U := by
  apply dentryAt_spec hd
  apply spec_modify
  rintro s rfl
  have hs : s.dentry_hash (D.parent, D.name) = none := hk
  rw [hs]
  exact h

theorem hashEraseDentry_spec (hd : a.dentries n = some D)
    (h : U () { a with dentry_hash := update a.dentry_hash (D.parent, D.name) none }) :
    Spec abs E a (hashEraseDentry n) U := by
  apply dentryAt_spec hd
  apply spec_modify
  rintro s rfl
  exact h

theorem hashPutVinode_spec (hv : a.vinodes v = some V) (h0 : 0 ≤ V.inum) (hk : a.vinode_hash V.inum = none)
    (h : U () { a with vinode_hash := update a.vinode_hash V.inum (some v) }) :
    Spec abs E a (hashPutVinode v) U := by
  apply vinodeAt_spec hv
  rw [if_pos h0]
  apply spec_modify
  rintro s rfl
  have hs : s.vinode_hash V.inum = none := hk
  rw [hs]
  exact h

theorem hashEraseVinode_spec (hv : a.vinodes v = some V) (h0 : 0 ≤ V.inum)
    (h : U () { a with vinode_hash := update a.vinode_hash V.inum none }) :
    Spec abs E a (hashEraseVinode v) U := by
  apply vinodeAt_spec hv
  rw [if_pos h0]
  apply spec_modify
  rintro s rfl
  exact h

theorem inodeOf_spec {g : ℕ → F α} (hd : a.dentries n = some D) (hv : D.dentry_inode = some v)
    (h : Spec abs E a (g v) T) :
    Spec abs E a (inodeOf n >>= g) T := by
  apply Spec.seq
  apply dentryAt_spec hd
  rw [hv]
  exact spec_pure h

theorem rfsInodeOf_spec (hd : a.dentries n = some D) (hv : D.dentry_inode = some v) (hV : a.vinodes v = some V)
    (hE : V.host = true → E .hostfs) (h : V.host = false → N v a) : Spec abs E a (rfsInodeOf n) N := by
  apply inodeOf_spec hd hv
  apply vinodeAt_spec hV
  cases hh : V.host with
  | true => exact spec_throw (hE hh)
  | false => exact spec_pure (h hh)

end

/-! ## Disk inodes and blocks -/

section

variable {U : Unit → Afs → Prop}

theorem rfsReadDinode_spec {Q : Dinode → Afs → Prop} (hn : n < NINODES) (h : Q (a.dinode n) a) :
    Spec abs E a (rfsReadDinode n) Q := by
  rintro s rfl
  rw [rfsReadDinode_run hn]
  exact h

def DirBlocks (a : Afs) : Prop := ∀ m, (a.dinode m).type = DIR_I → ∃ b < NBLOCKS, (a.dinode m).addrs 0 = 12 + (b : ℕ)

theorem writeInode_dir (hd : d.Ints) (hn : n < NINODES) (hblk : DirBlocks (abs s)) {m : ℕ} (hm : m ≠ n) :
    (s.writeInode n d).dir m = s.dir m := by
  have hdin : (s.writeInode n d).dinode m = s.dinode m := by
    rw [writeInode_dinode hd hn, update_of_ne hm]
  apply dir_congr hdin
  intro ht
  obtain ⟨b, hb, he⟩ := hblk m ht
  have he : (s.dinode m).addrs 0 = 12 + (b : ℤ) := he
  exact writeInode_blocks (by omega) hn

theorem rfsWriteDinode_spec (hn : n < NINODES) (hd : d.Ints) (hblk : DirBlocks a) (hdir : d.type = DIR_I → d.size = 0)
    (h : U () { a with dinode := update a.dinode n d, dir := update a.dir n [] }) :
    Spec abs E a (rfsWriteDinode d n) U := by
  rintro s rfl
  rw [rfsWriteDinode_run hn]
  have hnil : (s.writeInode n d).dir n = [] := by
    rw [St.dir, writeInode_dinode hd hn, update_self]
    split_ifs with ht
    · rw [totalDirentrys, hdir ht]
      rfl
    · rfl
  have habs : abs (s.writeInode n d) =
      { abs s with dinode := update s.dinode n d, dir := update s.dir n [] } := by
    have h1 : (s.writeInode n d).dir = update s.dir n [] := by
      funext m
      by_cases hm : m = n
      · subst hm
        rw [update_self, hnil]
      · rw [update_of_ne hm, writeInode_dir hd hn hblk hm]
    have h2 := writeInode_dinode (s := s) hd hn
    unfold abs
    rw [h1, h2]
    rfl
  show U () (abs (s.writeInode n d))
  rw [habs]
  exact h

theorem rfsAllocBlock_spec {Q : ℤ → Afs → Prop} (hE : E (.stop (.panic "rfs_alloc_block: no more free block!\n")))
    (h : ∀ b : ℕ, b < NBLOCKS → a.used b = false → Q (12 + (b : ℤ)) { a with used := update a.used b true }) :
    Spec abs E a rfsAllocBlock Q := by
  apply spec_get_bind
  rintro s rfl
  cases hf : (List.range NBLOCKS).find? fun block => !s.used block with
  | none => exact spec_throw hE
  | some b =>
    have hb := List.mem_range.1 (List.mem_of_find?_eq_some hf)
    have hfree := List.find?_some hf
    rw [Bool.not_eq_true'] at hfree
    apply spec_set_bind
    exact spec_pure (h b hb hfree)

theorem freeInode_spec {Q : ℕ × Dinode → Afs → Prop} {todo i : ℕ} (hi : i + todo ≤ NINODES)
    (hE : E .wildPointer ∨ ∃ m, i ≤ m ∧ m < i + todo ∧ (a.dinode m).type = R_FREE)
    (h : ∀ m < NINODES, (a.dinode m).type = R_FREE → Q (m, a.dinode m) a) : Spec abs E a (freeInode todo i) Q := by
  induction todo generalizing i with
  | zero => exact spec_throw (hE.resolve_right fun ⟨m, _, _, _⟩ => by omega)
  | succ todo ih =>
    apply Spec.seq
    apply rfsReadDinode_spec (by omega)
    by_cases hfree : (a.dinode i).type = R_FREE
    · rw [if_pos hfree]
      exact spec_pure (h i (by omega) hfree)
    · rw [if_neg hfree]
      refine ih (by omega) (hE.imp id fun ⟨m, hm, hlt, hm'⟩ => ⟨m, ?_, by omega, hm'⟩)
      have : m ≠ i := fun he => hfree (he ▸ hm')
      omega

def Dinode.fresh (d : Dinode) (b : ℕ) (type : ℤ) : Dinode :=
  { size := 0, type := type, nlinks := 1, blocks := 1, addrs := update d.addrs 0 (12 + (b : ℤ)) }

theorem fresh_ints {b : ℕ} {type : ℤ} (hd : d.Ints) (hb : b < NBLOCKS) (ht : IsInt type) : (d.fresh b type).Ints := by
  have hnblocks : NBLOCKS = 100 := rfl
  obtain ⟨-, -, -, -, haddrs⟩ := ints_iff.1 hd
  refine ints_iff.2 ⟨by simp [Dinode.fresh, IsInt], ht, by simp [Dinode.fresh, IsInt],
    by simp [Dinode.fresh, IsInt], fun i => ?_⟩
  simp only [Dinode.fresh]
  by_cases hi : i = 0
  · subst hi
    rw [update_self]
    constructor <;> omega
  · rw [update_of_ne hi]
    exact haddrs i

abbrev Spare (E : Fault → Prop) (a : Afs) : Prop := E .wildPointer ∨ ∃ m < 320, (a.dinode m).type = R_FREE

theorem newInode_spec {Q : ℕ → Afs → Prop} {type : ℤ} (hblk : DirBlocks a) (ht : IsInt type) (hE : Spare E a)
    (hE' : E (.stop (.panic "rfs_alloc_block: no more free block!\n")))
    (h : ∀ m b : ℕ, m < NINODES → (a.dinode m).type = R_FREE → b < NBLOCKS → a.used b = false →
      Q m { a with
        used := update a.used b true
        dinode := update a.dinode m ((a.dinode m).fresh b type) }) :
    Spec abs E a (newInode type) Q := by
  rintro s rfl
  refine Spec.seq ?_ s rfl
  refine freeInode_spec (by decide) (hE.imp id fun ⟨m, hm, hm'⟩ => ⟨m, Nat.zero_le m, by simpa using hm, hm'⟩)
    fun m hm hfree => ?_
  apply Spec.seq
  refine rfsAllocBlock_spec hE' fun b hb hused => ?_
  have hnil : s.dir m = [] := by
    rw [St.dir, if_neg]
    intro hdir
    have : (s.dinode m).type = R_FREE := hfree
    rw [this] at hdir
    cases hdir
  apply Spec.seq
  refine rfsWriteDinode_spec hm (fresh_ints (dinode_ints s m) hb ht) hblk (fun _ => rfl) ?_
  apply spec_pure
  have hdir : update (abs s).dir m [] = (abs s).dir := by
    rw [← hnil]
    exact update_eq_self m s.dir
  rw [hdir]
  exact h m b hm hfree hb hused

theorem rfsUpdateVinode_spec (hv : a.vinodes v = some V) (hn : n < NINODES) (hi : V.inum = n)
    (h : U () { a with vinodes := update a.vinodes v (some { V with toDinode := a.dinode n }) }) :
    Spec abs E a (rfsUpdateVinode v) U := by
  apply vinodeAt_spec hv
  have hread : rfsReadDinode V.inum = rfsReadDinode n := by rw [hi]
  apply Spec.seq
  rw [hread]
  apply rfsReadDinode_spec hn
  exact setVinode_spec h

def loaded (a : Afs) (n : ℕ) : Vinode := { toDinode := a.dinode n, inum := n, ref := 0, host := false }

theorem loadVinode_spec {α : Type} {g : ℕ → F α} {Q : α → Afs → Prop} (hn : n < NINODES)
    (h : Spec abs E { a with vinodes := update a.vinodes a.next (some (loaded a n)), next := a.next + 1 }
      (g a.next) Q) :
    Spec abs E a (rfsAllocVinode n >>= fun v => rfsUpdateVinode v >>= fun _ => g v) Q := by
  apply Spec.seq
  apply allocVinode_spec
  apply Spec.seq
  refine rfsUpdateVinode_spec (update_self _ _ _) hn rfl ?_
  rw [update_idem]
  exact h

end

/-! ## Directories -/

/-- `w` is the vinode of the directory with the inode `p` -/
structure Folder (a : Afs) (w : ℕ) (W : Vinode) (p : ℕ) : Prop where
  at_w : a.vinodes w = some W
  inum : W.inum = p
  lt : p < NINODES
  type : W.type = DIR_I
  same : W.toDinode = a.dinode p
  size : W.size = 32 * ((a.dir p).length : ℤ)
  length : (a.dir p).length ≤ BLOCK_DIRENTRYS
  block : ∃ b < NBLOCKS, W.addrs 0 = 12 + (b : ℕ)
  blocks : W.blocks = 1
  alone : ∀ m, m ≠ p → (a.dinode m).type = DIR_I → (a.dinode m).addrs 0 ≠ W.addrs 0
  names : ∀ e ∈ a.dir p, e.name.length < RFS_MAX_FILE_NAME_LEN

theorem Folder.total (h : Folder a w W p) : totalDirentrys W.toDinode = (a.dir p).length := by
  simp only [totalDirentrys, h.size, DIRENTRY]
  omega

theorem Folder.dir_eq {b : ℕ} (h : Folder (abs s) w W p) (hb : W.addrs 0 = 12 + (b : ℕ)) :
    s.dir p = loadEntries (s.blocks (12 + b)) (s.dir p).length := by
  have hd : s.dinode p = W.toDinode := h.same.symm
  have hblk : ((12 : ℤ) + (b : ℤ)).toNat = 12 + b := by omega
  conv_lhs => rw [St.dir, hd, if_pos h.type, show totalDirentrys W.toDinode = (s.dir p).length from h.total, hb, hblk]

theorem findDirentry_loaded (name : CString) {todo i : ℕ} (hi : 0 < i) (hk : i + todo ≤ 128)
    (hnames : ∀ j, i ≤ j → j < i + todo → (loadEntry s.iobuffer j).name.length < RFS_MAX_FILE_NAME_LEN) :
    findDirentry d name todo i s =
      .ok ((((List.range' i todo).map (loadEntry s.iobuffer)).findIdx? (·.name = name)).map (· + i), s) := by
  induction todo generalizing i with
  | zero => rfl
  | succ todo ih =>
    have hmod : i % 128 = i := by omega
    have hcmp : strEq s.iobuffer (i % 128 * 32 + 4) name = decide ((loadEntry s.iobuffer i).name = name) := by
      rw [hmod, Nat.mul_comm, Bool.eq_iff_iff, decide_eq_true_eq]
      exact strEq_iff (hnames i (by omega) (by omega))
    simp only [findDirentry, BLOCK_DIRENTRYS, DIRENTRY]
    rw [if_neg (by omega), run_get_bind, hcmp]
    rw [List.range'_succ, List.map_cons, List.findIdx?_cons]
    by_cases hname : (loadEntry s.iobuffer i).name = name
    · simp only [hname, decide_true, if_true]
      rw [Option.map_some, Nat.zero_add]
      rfl
    · simp only [hname, decide_false, Bool.false_eq_true, if_false]
      rw [ih (by omega) (by omega) fun j h1 h2 => hnames j (by omega) (by omega), Option.map_map]
      congr 3
      funext x
      simp only [Function.comp]
      omega

theorem findDirentry_run (name : CString) {b : ℕ} (hW : Folder (abs s) w W p) (hb : W.addrs 0 = 12 + (b : ℕ))
    (hlt : b < NBLOCKS) :
    ∃ buf, findDirentry W.toDinode name (totalDirentrys W.toDinode) 0 s =
        .ok ((s.dir p).findIdx? (·.name = name), s.io buf) ∧
      (s.dir p ≠ [] → ∀ i < RFS_BLKSIZE, buf i = s.blocks (12 + b) i) := by
  have hnblocks : NBLOCKS = 100 := rfl
  have hblockcount : RAMDISK_BLOCK_COUNT = 128 := rfl
  have hdir := hW.dir_eq hb
  have hlen : (s.dir p).length ≤ 128 := hW.length
  rw [show totalDirentrys W.toDinode = (s.dir p).length from hW.total]
  cases hc : (s.dir p).length with
  | zero =>
    have hnil := List.length_eq_zero_iff.1 hc
    refine ⟨s.iobuffer, ?_, fun hne => absurd hnil hne⟩
    rw [hnil]
    rfl
  | succ todo =>
    let buf := copyBlock s.iobuffer (s.blocks (12 + b))
    have hbuf : ∀ i < 4096, buf i = s.blocks (12 + b) i := fun i hi => copyBlock_of_lt hi
    have hentry : ∀ j < 128, loadEntry buf j = loadEntry (s.blocks (12 + b)) j := fun j hj =>
      loadEntry_congr fun i hi => hbuf _ (by omega)
    have hnames : ∀ j < todo + 1, (loadEntry buf j).name.length < 28 := by
      intro j hj
      rw [hentry j (by omega)]
      apply hW.names
      have hmem : (loadEntries (s.blocks (12 + b)) (s.dir p).length)[j]? = some (loadEntry (s.blocks (12 + b)) j) :=
        loadEntries_getElem? (by omega)
      rw [← hdir] at hmem
      exact List.mem_of_getElem? hmem
    have hlist : s.dir p = (List.range' 0 (todo + 1)).map (loadEntry buf) := by
      rw [hdir, hc, loadEntries, List.range_eq_range']
      apply List.map_congr_left
      grind
    refine ⟨buf, ?_, fun _ => hbuf⟩
    have hcmp : strEq buf (0 % 128 * 32 + 4) name = decide ((loadEntry buf 0).name = name) := by
      rw [Bool.eq_iff_iff, decide_eq_true_eq]
      exact strEq_iff (hnames 0 (by omega))
    have haddr : (W.toDinode.addr ((0 / 128 : ℕ) : ℤ)) s = .ok (12 + (b : ℤ), s) := by
      rw [← hb]
      rfl
    have hread : ramdiskRead (12 + (b : ℤ)) s = .ok ((), s.io buf) := by
      have := ramdiskRead_run (s := s) (k := 12 + b) (by omega)
      rwa [Nat.cast_add] at this
    have hrest := @findDirentry_loaded (s.io buf) W.toDinode name todo 1 (by omega) (by omega)
      fun j h1 h2 => hnames j (by omega)
    rw [findDirentry, if_pos (Nat.zero_mod _), run_step haddr, run_step hread]
    show (if strEq buf (0 % 128 * 32 + 4) name = true then _ else _ : F _) (s.io buf) = _
    rw [hcmp, hlist, List.range'_succ, List.map_cons, List.findIdx?_cons]
    by_cases hname : (loadEntry buf 0).name = name
    · simp only [hname, decide_true, if_true]
      rfl
    · simp only [hname, decide_false, Bool.false_eq_true, if_false]
      exact hrest

/-- what a name means in a directory -/
def Afs.find (a : Afs) (p : ℕ) (name : CString) : Option ℤ := ((a.dir p).find? (·.name = name)).map (·.inum)

theorem find_of_findIdx {l : List Entry} :
    (l.find? (·.name = name)).map (·.inum) = (l.findIdx? (·.name = name)).bind fun i => l[i]?.map (·.inum) := by
  induction l with
  | nil => rfl
  | cons e l ih =>
    rw [List.find?_cons, List.findIdx?_cons]
    by_cases h : e.name = name
    · simp [h]
    · simp only [h, decide_false, Bool.false_eq_true, if_false]
      rw [ih, Option.bind_map]
      rfl

theorem findDirentry_cases (name : CString) (hW : Folder (abs s) w W p) :
    (∃ buf, findDirentry W.toDinode name (totalDirentrys W.toDinode) 0 s = .ok (none, s.io buf) ∧
      (abs s).find p name = none) ∨
    ∃ i x buf, findDirentry W.toDinode name (totalDirentrys W.toDinode) 0 s = .ok (some i, s.io buf) ∧
      (abs s).find p name = some x ∧ (s.dir p).findIdx? (·.name = name) = some i ∧
      direntryInum i (s.io buf) = .ok (x, s.io buf) := by
  have hblksize : RFS_BLKSIZE = 4096 := rfl
  obtain ⟨b, hlt, hb⟩ := hW.block
  obtain ⟨buf, hrun, hbuf⟩ := findDirentry_run name hW hb hlt
  have hfind : (abs s).find p name = ((s.dir p).findIdx? (·.name = name)).bind fun i => (s.dir p)[i]?.map (·.inum) :=
    find_of_findIdx
  cases hidx : (s.dir p).findIdx? (·.name = name) with
  | none =>
    rw [hidx] at hfind hrun
    exact .inl ⟨buf, hrun, hfind⟩
  | some i =>
    obtain ⟨hi, -⟩ := List.findIdx?_eq_some_iff_findIdx_eq.1 hidx
    have hlen : (s.dir p).length ≤ 128 := hW.length
    have hentry : (s.dir p)[i]? = some (loadEntry (s.blocks (12 + b)) i) := by
      rw [hW.dir_eq hb]
      exact loadEntries_getElem? hi
    have hne : s.dir p ≠ [] := by
      intro hnil
      rw [hnil] at hi
      simp at hi
    have hinum : loadInt buf (i % 128 * 32) = (loadEntry (s.blocks (12 + b)) i).inum := by
      rw [Nat.mod_eq_of_lt (by omega), Nat.mul_comm]
      exact loadInt_congr fun j hj => hbuf hne _ (by omega)
    rw [hidx] at hfind hrun
    rw [Option.bind_some, hentry, Option.map_some, ← hinum] at hfind
    exact .inr ⟨i, _, buf, hrun, hfind, rfl, rfl⟩

/-- **Lookup.** `rfs_lookup` in a directory loads the inode of the first entry with the name. -/
theorem rfsLookup_spec {Q : Option ℕ → Afs → Prop} (hW : Folder a w W p)
    (hin : ∀ x, a.find p name = some x → ∃ m < NINODES, x = (m : ℕ)) (hnone : a.find p name = none → Q none a)
    (hsome : ∀ m : ℕ, m < NINODES → a.find p name = some m →
      Q (some a.next) { a with vinodes := update a.vinodes a.next (some (loaded a m)), next := a.next + 1 }) :
    Spec abs E a (rfsLookup w name) Q := by
  apply vinodeAt_spec hW.at_w
  rintro s rfl
  rcases findDirentry_cases name hW with ⟨buf, hrun, hfind⟩ | ⟨i, x, buf, hrun, hfind, -, hget⟩
  · rw [run_step hrun]
    exact hnone hfind
  · obtain ⟨m, hm, rfl⟩ := hin x hfind
    rw [run_step hrun]
    show System.Ends E ((direntryInum i >>= _) (s.io buf)) _
    rw [run_step hget]
    refine loadVinode_spec (g := fun v => pure (some v)) hm ?_ (s.io buf) rfl
    exact spec_pure (hsome m hm hfind)

theorem rfsLookup_short {Q : Option ℕ → Afs → Prop} (hV : a.vinodes v = some V) (hsize : V.size < 32)
    (h : Q none a) : Spec abs E a (rfsLookup v name) Q := by
  have h0 : totalDirentrys V.toDinode = 0 := by
    simp only [totalDirentrys, DIRENTRY]
    omega
  apply vinodeAt_spec hV
  rw [h0]
  exact spec_pure h

theorem Dinode.Ints.resize {z : ℤ} (hd : d.Ints) (hz : IsInt z) : ({ d with size := z } : Dinode).Ints := by
  exact ints_iff.2 ⟨hz, (ints_iff.1 hd).2⟩

theorem abs_rewriteDir (s1 : St) {b k : ℕ} {B : Buf} {e : Dinode} (hW : Folder (abs s) w W p)
    (hb : W.addrs 0 = 12 + (b : ℕ)) (hblk : DirBlocks (abs s)) (hk : k ≤ BLOCK_DIRENTRYS)
    (he : e = { W.toDinode with size := 32 * (k : ℤ) })
    (hmem : s1.toMem = { s.toMem with vinodes := update s.vinodes w (some { W with size := 32 * (k : ℤ) }) })
    (hs1 : s1.blocks = update s.blocks (12 + b) B) :
    abs (s1.writeInode p e) =
      { abs s with
        vinodes := update s.vinodes w (some { W with size := 32 * (k : ℤ) })
        dinode := update s.dinode p e
        dir := update s.dir p (loadEntries B k) } := by
  have hdirentrys : BLOCK_DIRENTRYS = 128 := rfl
  have hints : e.Ints := by
    subst he
    apply Dinode.Ints.resize
    · rw [hW.same]
      exact dinode_ints s p
    · constructor <;> omega
  have hdin : s1.dinode = s.dinode := by
    funext m
    apply dinode_congr
    intro j h1 h2
    rw [hs1]
    exact update_of_ne (by omega) _ _
  have h1 : (s1.writeInode p e).dinode = update s.dinode p e := by
    rw [writeInode_dinode hints hW.lt, hdin]
  have hblk1 : DirBlocks (abs s1) := by
    intro m hm
    have hm : (s1.dinode m).type = DIR_I := hm
    rw [hdin] at hm
    obtain ⟨c, hc, he⟩ := hblk m hm
    refine ⟨c, hc, ?_⟩
    show (s1.dinode m).addrs 0 = _
    rw [hdin]
    exact he
  have h2 : (s1.writeInode p e).dir = update s.dir p (loadEntries B k) := by
    funext m
    by_cases hm : m = p
    · subst hm
      have hblock : (12 + (b : ℤ)).toNat = 12 + b := by omega
      have htotal : totalDirentrys e = k := by
        simp only [he, totalDirentrys, DIRENTRY]
        omega
      rw [update_self, St.dir, h1, update_self, if_pos (he ▸ hW.type), htotal]
      simp only [he, hb, hblock]
      rw [writeInode_blocks (by omega) hW.lt, hs1, update_self]
    · rw [update_of_ne hm, writeInode_dir hints hW.lt hblk1 hm]
      apply dir_congr (congrFun hdin m)
      intro hdir
      obtain ⟨c, -, he⟩ := hblk m hdir
      have he : (s.dinode m).addrs 0 = 12 + (c : ℤ) := he
      have hne := hW.alone m hm hdir
      have hne : (s.dinode m).addrs 0 ≠ W.addrs 0 := hne
      rw [he, hb] at hne
      rw [he, hs1]
      exact update_of_ne (by omega) _ _
  have hmem' : (s1.writeInode p e).toMem = s1.toMem := rfl
  unfold abs
  rw [h1, h2, hmem', hmem]

theorem Folder.addr_run {b : ℕ} (hb : W.addrs 0 = 12 + (b : ℕ)) {i : ℤ} (hi : i = 0) :
    W.toDinode.addr i s = .ok (((12 + b : ℕ) : ℤ), s) := by
  subst hi
  show Except.ok (W.addrs 0, s) = _
  rw [hb]
  rfl

theorem rfsWriteBackVinode_run (hV : s.vinodes v = some V) (hn : n < NINODES) (hi : V.inum = n) :
    rfsWriteBackVinode v s = .ok ((), s.writeInode n V.toDinode) := by
  have hat : vinodeAt v s = .ok (V, s) := by
    unfold vinodeAt
    rw [run_get_bind, hV]
    rfl
  rw [rfsWriteBackVinode, run_step hat, hi]
  exact rfsWriteDinode_run hn

/-- **A new entry.** `rfs_add_direntry` appends to a directory that has room for the entry in its block. -/
theorem rfsAddDirentry_spec {Q : Bool → Afs → Prop} {inum : ℤ} (hW : Folder a w W p) (hblk : DirBlocks a)
    (hroom : (a.dir p).length < 128) (hname : name.length < 28) (hi : IsInt inum)
    (h : Q true
      { a with
        vinodes := update a.vinodes w (some { W with size := W.size + 32 })
        dinode := update a.dinode p { W.toDinode with size := W.size + 32 }
        dir := update a.dir p (a.dir p ++ [⟨name, inum⟩]) }) :
    Spec abs E a (rfsAddDirentry w name inum) Q := by
  have hnblocks : NBLOCKS = 100 := rfl
  have hblksize : RFS_BLKSIZE = 4096 := rfl
  have hdirentrys : BLOCK_DIRENTRYS = 128 := rfl
  have hblockcount : RAMDISK_BLOCK_COUNT = 128 := rfl
  apply vinodeAt_spec hW.at_w
  rintro s rfl
  obtain ⟨b, hlt, hb⟩ := hW.block
  have hsize : W.size = 32 * ((s.dir p).length : ℤ) := hW.size
  have hroom : (s.dir p).length < 128 := hroom
  have hdiv : W.size.tdiv RFS_BLKSIZE = 0 := by
    rw [Int.tdiv_eq_ediv_of_nonneg (by omega)]
    simp only [RFS_BLKSIZE]
    omega
  have hmod : (W.size.tmod RFS_BLKSIZE).toNat = 32 * (s.dir p).length := by
    rw [Int.tmod_eq_emod_of_nonneg (by omega)]
    simp only [RFS_BLKSIZE]
    omega
  have hfit : ¬ RFS_BLKSIZE < 32 * (s.dir p).length + 4 + name.length + 1 := by
    simp only [RFS_BLKSIZE]
    omega
  let B := copyBlock s.iobuffer (s.blocks (12 + b))
  let B' := storeString (storeInt B (32 * (s.dir p).length) inum) (32 * (s.dir p).length + 4) name
  let s1 : St :=
    { s with
      iobuffer := B'
      blocks := update s.blocks (12 + b) (copyBlock (s.blocks (12 + b)) B')
      vinodes := update s.vinodes w (some { W with size := W.size + 32 }) }
  have hback : rfsWriteBackVinode w s1 = .ok ((), s1.writeInode p { W.toDinode with size := W.size + 32 }) :=
    rfsWriteBackVinode_run (s := s1) (update_self _ _ _) hW.lt hW.inum
  rw [if_neg (not_not.2 hW.type), run_step (Folder.addr_run hb hdiv), run_step (ramdiskRead_run (by omega))]
  simp only [hmod]
  rw [if_neg hfit]
  have hwrite : ramdiskWrite ((12 + b : ℕ) : ℤ) { s with iobuffer := B' } = .ok ((),
    { s1 with vinodes := s.vinodes }) :=
    ramdiskWrite_run (by omega)
  show System.Ends E ((ramdiskWrite ((12 + b : ℕ) : ℤ) >>= fun _ => _) { s with iobuffer := B' }) _
  rw [run_step hwrite]
  show System.Ends E ((rfsWriteBackVinode w >>= fun _ => pure true) s1) _
  rw [run_step hback]
  show Q true (abs _)
  have hnext : W.size + 32 = 32 * (((s.dir p).length + 1 : ℕ) : ℤ) := by omega
  have hentries : loadEntries (copyBlock (s.blocks (12 + b)) B') ((s.dir p).length + 1) = s.dir p ++
    [⟨name, inum⟩] := by
    rw [loadEntries_congr fun i hi => copyBlock_of_lt (by omega), loadEntries_append hname hi]
    rw [loadEntries_congr fun i hi => copyBlock_of_lt (by omega), ← hW.dir_eq hb]
  rw [hnext, abs_rewriteDir s1 hW hb hblk (by omega) rfl (by rw [← hnext]) rfl, hentries, ← hnext]
  exact h

abbrev cannotCreate : Stop := .panic "vfs_open: cannot create file!\n"

def Mild (E : Fault → Prop) : Prop := ∀ e, (∀ c, e ≠ .stop (.assertion c)) ∧ e ≠ .stop cannotCreate → E e

def Milder (E : Fault → Prop) : Prop :=
  ∀ e, (∀ c, e ≠ .stop (.assertion c)) ∧ e ≠ .stop cannotCreate ∧ e ≠ .wildPointer → E e

theorem Mild.milder (hE : Mild E) : Milder E := fun e he => hE e ⟨he.1, he.2.1⟩

theorem Milder.stop (hE : Milder E) {e : Stop} (he : (∀ c, e ≠ .assertion c) ∧ e ≠ cannotCreate) : E (.stop e) := by
  apply hE
  grind

theorem Mild.stop (hE : Mild E) {e : Stop} (he : (∀ c, e ≠ .assertion c) ∧ e ≠ cannotCreate) : E (.stop e) := by
  apply hE
  grind

variable {U : Unit → Afs → Prop}

/-- **An entry less.** The last part of `rfs_unlink` takes the entry `i` out of the directory, moves those behind it one
place to the front, and makes the inode of the directory 32 bytes smaller in memory and on disk. -/
theorem removeDirentry_spec {i : ℕ} (hW : Folder a w W p) (hblk : DirBlocks a) (hi : i < (a.dir p).length) (h : U ()
      { a with
        vinodes := update a.vinodes w (some { W with size := W.size - 32 })
        dinode := update a.dinode p { W.toDinode with size := W.size - 32 }
        dir := update a.dir p ((a.dir p).eraseIdx i) }) :
    Spec abs E a (removeDirentry w i) U := by
  have hnblocks : NBLOCKS = 100 := rfl
  have hblksize : RFS_BLKSIZE = 4096 := rfl
  have hdirentrys : BLOCK_DIRENTRYS = 128 := rfl
  have hblockcount : RAMDISK_BLOCK_COUNT = 128 := rfl
  apply vinodeAt_spec hW.at_w
  rintro s rfl
  obtain ⟨b, hlt, hb⟩ := hW.block
  have hsize : W.size = 32 * ((s.dir p).length : ℤ) := hW.size
  have hlen : (s.dir p).length ≤ 128 := hW.length
  have hi : i < (s.dir p).length := hi
  have hdiv : ((i / BLOCK_DIRENTRYS : ℕ) : ℤ) = 0 := by
    rw [Nat.div_eq_of_lt (by simp only [BLOCK_DIRENTRYS]; omega)]
    rfl
  have hmod : i % BLOCK_DIRENTRYS = i := Nat.mod_eq_of_lt (by simp only [BLOCK_DIRENTRYS]; omega)
  let B := copyBlock s.iobuffer (s.blocks (12 + b))
  let B' := copyBlock B (shiftDirentrys B i)
  let s1 : St :=
    { s with
      iobuffer := B'
      blocks := update s.blocks (12 + b) (copyBlock (s.blocks (12 + b)) B')
      vinodes := update s.vinodes w (some { W with size := W.size - 32 }) }
  have hback : rfsWriteBackVinode w s1 = .ok ((), s1.writeInode p { W.toDinode with size := W.size - 32 }) :=
    rfsWriteBackVinode_run (s := s1) (update_self _ _ _) hW.lt hW.inum
  have hshift : ∀ (prev : Buf) (t : St), shiftBlocks W.toDinode (W.blocks.toNat - (i / BLOCK_DIRENTRYS + 1))
      (i / BLOCK_DIRENTRYS + 1) prev t = .ok (prev, t) := by
    intro prev t
    rw [hW.blocks, show (1 : ℤ).toNat - (i / BLOCK_DIRENTRYS + 1) = 0 by simp]
    rfl
  have hone : ¬ (1 : ℤ) < W.blocks := by
    rw [hW.blocks]
    omega
  rw [run_step (Folder.addr_run hb hdiv), run_step (ramdiskRead_run (by omega))]
  rw [run_get_bind]
  rw [hmod, run_step (hshift _ _), run_get_bind, run_step setIobuffer_run]
  rw [run_step (Folder.addr_run hb (by rw [hW.blocks]; rfl)), run_step (ramdiskWrite_run (by omega))]
  rw [if_neg fun hc => hone hc.2]
  show System.Ends E (rfsWriteBackVinode w s1) _
  rw [hback]
  show U () (abs _)
  have hprev : W.size - 32 = 32 * (((s.dir p).length - 1 : ℕ) : ℤ) := by omega
  have hentries : loadEntries (copyBlock (s.blocks (12 + b)) B') ((s.dir p).length - 1) = (s.dir p).eraseIdx i := by
    rw [loadEntries_congr fun j hj => copyBlock_of_lt (by omega),
      loadEntries_congr fun j hj => copyBlock_of_lt (by omega)]
    rw [loadEntries_shift hi hlen, loadEntries_congr fun j hj => copyBlock_of_lt (by omega), ← hW.dir_eq hb]
  rw [hprev, abs_rewriteDir s1 hW hb hblk (by omega) rfl (by rw [← hprev]) rfl, hentries, ← hprev]
  exact h

/-! ## Unlink -/

/-- the block `12 + b` is one of the first `k` of the inode -/
def Dinode.Has (d : Dinode) (k : ℤ) (b : ℕ) : Prop := ∃ i : Fin 10, (i : ℤ) < k ∧ d.addrs i = 12 + (b : ℤ)

instance {d : Dinode} {k : ℤ} {b : ℕ} : Decidable (d.Has k b) :=
  inferInstanceAs (Decidable (∃ i : Fin 10, (i : ℤ) < k ∧ d.addrs i = 12 + (b : ℤ)))

def Dinode.release (d : Dinode) (k : ℤ) (used : ℕ → Bool) : ℕ → Bool := fun b => if d.Has k b then false else used b

theorem release_succ {used : ℕ → Bool} {i b : ℕ} (hi : i < 10) (hb : d.addrs ⟨i, hi⟩ = 12 + (b : ℤ)) :
    d.release ((i : ℤ) + 1) used = update (d.release i used) b false := by
  funext c
  unfold Dinode.release
  by_cases hc : c = b
  · subst hc
    rw [update_self, if_pos ⟨⟨i, hi⟩, by simp, hb⟩]
  · rw [update_of_ne hc]
    have : d.Has ((i : ℤ) + 1) c ↔ d.Has i c := by
      constructor
      · rintro ⟨j, hj, he⟩
        refine ⟨j, ?_, he⟩
        grind
      · rintro ⟨j, hj, he⟩
        exact ⟨j, by omega, he⟩
    simp only [this]

theorem rfsFreeBlock_spec {b : ℕ} (hb : b < NBLOCKS)
    (h : U () { a with used := update a.used b false }) : Spec abs E a (rfsFreeBlock (12 + (b : ℤ))) U := by
  have hnblocks : NBLOCKS = 100 := rfl
  simp only [rfsFreeBlock, RFS_BLK_OFFSET_FREE, RFS_BLKSIZE]
  rw [if_neg (by omega)]
  apply spec_modify
  rintro s rfl
  have hidx : (12 + (b : ℤ) - ((12 : ℕ) : ℤ)).toNat = b := by omega
  rw [hidx]
  exact h

theorem freeBlocks_spec (hd : d.blocks ≤ 10)
    (hblk : ∀ i : Fin 10, (i : ℤ) < d.blocks → ∃ b < NBLOCKS, d.addrs i = 12 + (b : ℕ))
    (h : U () { a with used := d.release d.blocks a.used }) : Spec abs E a (freeBlocks d) U := by
  have hloop := spec_forRange (f := abs) (E := E) (a := a) (g := fun i : ℕ => do rfsFreeBlock (← d.addr i))
    (fun i a1 => a1 = { a with used := d.release i a.used }) (n := d.blocks.toNat) ?_ ?_
  · refine hloop.post ?_
    rintro - a1 rfl
    by_cases h0 : 0 ≤ d.blocks
    · rwa [Int.toNat_of_nonneg h0]
    · have : d.release (d.blocks.toNat : ℤ) a.used = d.release d.blocks a.used := by
        funext c
        unfold Dinode.release
        have hno : ∀ k : ℤ, k ≤ 0 → ¬ d.Has k c := by
          rintro k hk ⟨i, hi, -⟩
          omega
        rw [if_neg (hno _ (by omega)), if_neg (hno _ (by omega))]
      rwa [this]
  · have : d.release ((0 : ℕ) : ℤ) a.used = a.used := by
      funext c
      unfold Dinode.release
      rw [if_neg]
      rintro ⟨i, hi, -⟩
      omega
    rw [this]
  · rintro i a1 hi rfl
    have hi10 : i < 10 := by omega
    obtain ⟨b, hb, he⟩ := hblk ⟨i, hi10⟩ (by simp only; omega)
    have haddr : d.addr (i : ℤ) = pure (12 + (b : ℤ)) := by
      rw [← he]
      unfold Dinode.addr
      rw [dif_pos (by simp only [DIRECT_BLKNUM]; omega)]
      rfl
    grind [rfsFreeBlock_spec, release_succ]

theorem dir_nil (h : ((abs s).dinode n).type ≠ DIR_I) : (abs s).dir n = [] := if_neg h

theorem rfsWriteDinode_file (hn : n < NINODES) (hd : d.Ints) (hblk : DirBlocks a)
    (ht : d.type ≠ DIR_I) (ht' : a.dir n = []) (h : U () { a with dinode := update a.dinode n d }) :
    Spec abs E a (rfsWriteDinode d n) U := by
  refine rfsWriteDinode_spec hn hd hblk (fun hdir => absurd hdir ht) ?_
  have : update a.dir n [] = a.dir := by
    rw [← ht']
    exact update_eq_self n a.dir
  rw [this]
  exact h

def Dinode.unlinked (d : Dinode) : Dinode :=
  if d.nlinks = 1 then { d with nlinks := 0, type := R_FREE } else { d with nlinks := d.nlinks - 1 }

theorem Dinode.Ints.unlinked (hd : d.Ints) (h1 : 1 ≤ d.nlinks) : d.unlinked.Ints := by
  obtain ⟨hs, ht, ⟨h2, h3⟩, hrest⟩ := ints_iff.1 hd
  unfold Dinode.unlinked
  split_ifs with hl
  · exact ints_iff.2 ⟨hs, by simp [IsInt, R_FREE], by simp [IsInt], hrest⟩
  · refine ints_iff.2 ⟨hs, ht, ?_, hrest⟩
    constructor <;> simp only <;> omega

theorem dropLink_spec (hn : n < NINODES) (hV : a.vinodes v = some V) (hblk : DirBlocks a)
    (ht : (a.dinode n).type ≠ DIR_I) (h1 : 1 ≤ (a.dinode n).nlinks) (hd : (a.dinode n).blocks ≤ 10)
    (haddr : ∀ i : Fin 10, (i : ℤ) < (a.dinode n).blocks → ∃ b < NBLOCKS, (a.dinode n).addrs i = 12 + (b : ℕ))
    (hE : V.nlinks ≠ (a.dinode n).nlinks → E (.stop (.assertion "unlink_vinode->nlinks == unlink_dinode->nlinks")))
    (h : V.nlinks = (a.dinode n).nlinks →
      U () { a with
        vinodes := update a.vinodes v (some { V with nlinks := V.nlinks - 1 })
        used := if V.nlinks = 1 then (a.dinode n).release (a.dinode n).blocks a.used else a.used
        dinode := update a.dinode n (a.dinode n).unlinked }) :
    Spec abs E a (dropLink v n) U := by
  rintro s rfl
  have hnil : (abs s).dir n = [] := dir_nil ht
  have hints := (dinode_ints s n).unlinked h1
  refine Spec.seq ?_ s rfl
  apply rfsReadDinode_spec hn
  apply vinodeAt_spec hV
  by_cases hne : V.nlinks = ((abs s).dinode n).nlinks
  · rw [if_neg (not_not.2 hne)]
    apply Spec.seq
    apply setVinode_spec
    have h := h hne
    by_cases hlast : V.nlinks = 1
    · rw [if_pos (by omega)]
      rw [if_pos hlast] at h
      have hu : { (abs s).dinode n with nlinks := V.nlinks - 1, type := R_FREE } = ((abs s).dinode n).unlinked := by
        rw [Dinode.unlinked, if_pos (hne ▸ hlast), hlast]
        rfl
      apply Spec.seq
      apply freeBlocks_spec hd haddr
      rw [hu]
      refine rfsWriteDinode_file hn hints hblk ?_ hnil h
      rw [← hu]
      simp [R_FREE]
    · rw [if_neg (by omega)]
      rw [if_neg hlast] at h
      have hu : { (abs s).dinode n with nlinks := V.nlinks - 1 } = ((abs s).dinode n).unlinked := by
        rw [Dinode.unlinked, if_neg (hne ▸ hlast), hne]
      rw [hu]
      refine rfsWriteDinode_file hn hints hblk ?_ hnil h
      rw [← hu]
      exact ht
  · rw [if_pos hne]
    exact Spec.seq (spec_throw (hE hne))

/-- **Unlink.** `rfs_unlink` of a name that is in the directory drops a link of its inode and removes the entry. -/
theorem rfsUnlink_spec {Q : Bool → Afs → Prop} (hW : Folder a w W p) {x : ℤ} (hx : a.find p name = some x)
    (h : ∀ i, (a.dir p).findIdx? (·.name = name) = some i →
      Spec abs E a (do dropLink v x; removeDirentry w i; return true) Q) :
    Spec abs E a (rfsUnlink w name v) Q := by
  apply vinodeAt_spec hW.at_w
  rintro s rfl
  rcases findDirentry_cases name hW with ⟨buf, -, hfind⟩ | ⟨i, y, buf, hrun, hfind, hidx, hget⟩
  · rw [hx] at hfind
    cases hfind
  · cases hx.symm.trans hfind
    obtain ⟨hi, -⟩ := List.findIdx?_eq_some_iff_findIdx_eq.1 hidx
    have htotal : ¬ totalDirentrys W.toDinode = 0 := by
      rw [hW.total]
      exact Nat.ne_zero_of_lt hi
    rw [if_neg htotal]
    dsimp only
    rw [run_step hrun]
    show System.Ends E ((direntryInum i >>= _) (s.io buf)) _
    rw [run_step hget]
    exact h i hidx (s.io buf) rfl

end RiscvPke.Fs
