/-
What a file call leaves alone. The functions of RFS write vinodes and the disk only (`Quiet`); lookups, creations and
links add dentries that nobody has opened (`Looks`); and a dentry keeps its vinode, a vinode its inode number, for as
long as it is in memory (`Kin`).
-/
import RiscvPke.Fs.Openers
import RiscvPke.Fs.Runs

namespace RiscvPke.Fs

open Function CData Run RiscvPke.System

variable {b t s s' : St} {v w d p : ℕ} {V W : Vinode} {name : CString}

/-! ## Programs that write no object -/

@[grind =] def objects (s : St) := (s.vinodes, s.dentries, s.pfiles, s.vfs_root_dentry, s.next)

abbrev Still {α : Type} (x : F α) : Prop := Keeps objects x

variable {α : Type}

@[grind ←] theorem still_stop {e : Stop} : Still (stop e : F α) := keeps_throw

@[grind ←] theorem still_ramdiskRead {x : ℤ} : Still (ramdiskRead x) := by
  unfold ramdiskRead
  grind

@[grind ←] theorem still_ramdiskWrite {x : ℤ} : Still (ramdiskWrite x) := by
  unfold ramdiskWrite
  grind

@[grind ←] theorem still_setIobuffer {x : Buf} : Still (setIobuffer x) := keeps_modify fun _ => rfl

@[grind ←] theorem still_rfsReadDinode {n : ℤ} : Still (rfsReadDinode n) := by
  unfold rfsReadDinode
  grind

@[grind ←] theorem still_rfsWriteDinode {e : Dinode} {n : ℤ} : Still (rfsWriteDinode e n) := by
  unfold rfsWriteDinode
  grind

@[grind ←] theorem still_rfsAllocBlock : Still rfsAllocBlock := by
  refine keeps_get_bind fun s r s' h => ?_
  cases hfind : (List.range NBLOCKS).find? fun block => !s.used block with
  | none =>
    simp only [hfind] at h
    cases h
  | some block =>
    simp only [hfind] at h
    grind

@[grind ←] theorem still_rfsFreeBlock {n : ℤ} : Still (rfsFreeBlock n) := by
  unfold rfsFreeBlock
  grind

@[grind ←] theorem still_addr {e : Dinode} {i : ℤ} : Still (e.addr i) := by
  unfold Dinode.addr
  split <;> grind

theorem run_vinodeAt : vinodeAt v s = .ok (V, s') ↔ s.vinodes v = some V ∧ s = s' := by
  unfold vinodeAt
  rw [run_get_bind]
  cases hv : s.vinodes v with
  | none => simp [run_throw]
  | some V' => simp [run_pure]

theorem run_dentryAt {D : Dentry} : dentryAt d s = .ok (D, s') ↔ s.dentries d = some D ∧ s = s' := by
  unfold dentryAt
  rw [run_get_bind]
  cases hd : s.dentries d with
  | none => simp [run_throw]
  | some D' => simp [run_pure]

theorem run_inodeOf (h : inodeOf d s = .ok (v, s')) :
    ∃ De, s.dentries d = some De ∧ De.dentry_inode = some v ∧ s = s' := by
  obtain ⟨De, s1, h1, h2⟩ := run_bind.1 h
  obtain ⟨hDe, rfl⟩ := (run_dentryAt).1 h1
  cases hi : De.dentry_inode with
  | none =>
    rw [hi] at h2
    cases h2
  | some w =>
    rw [hi] at h2
    cases h2
    exact ⟨De, hDe, hi, rfl⟩

theorem run_inodeOf_bind {f : Vinode → F α} {r : α × St} (h : (inodeOf d >>= fun v => vinodeAt v >>= f) s = .ok r) :
    ∃ De v V, s.dentries d = some De ∧ De.dentry_inode = some v ∧ s.vinodes v = some V ∧ f V s = .ok r := by
  obtain ⟨v, s1, h1, h2⟩ := run_bind.1 h
  obtain ⟨De, hDe, hi, rfl⟩ := run_inodeOf h1
  obtain ⟨V, s2, h3, h4⟩ := run_bind.1 h2
  obtain ⟨hV, rfl⟩ := (run_vinodeAt).1 h3
  exact ⟨De, v, V, hDe, hi, hV, h4⟩

@[grind ←] theorem still_vinodeAt : Still (vinodeAt v) := by
  unfold vinodeAt
  grind

@[grind ←] theorem still_dentryAt : Still (dentryAt d) := by
  unfold dentryAt
  grind

@[grind ←] theorem still_rfsWriteBackVinode : Still (rfsWriteBackVinode v) := (still_vinodeAt).bind fun _ =>
    still_rfsWriteDinode

variable {i : ℕ}

@[grind ←] theorem still_findDirentry {dir : Dinode} {todo : ℕ} : Still (findDirentry dir name todo i) := by
  induction todo generalizing i with
  | zero => exact keeps_pure
  | succ todo ih =>
    unfold findDirentry
    grind

@[grind ←] theorem still_direntryInum : Still (direntryInum i) := keeps_get.bind fun _ => keeps_pure

@[grind ←] theorem still_freeInode {todo : ℕ} : Still (freeInode todo i) := by
  induction todo generalizing i with
  | zero => exact keeps_throw
  | succ todo ih =>
    unfold freeInode
    grind

@[grind ←] theorem still_newInode {type : ℤ} : Still (newInode type) := by
  unfold newInode
  grind

@[grind ←] theorem still_freeBlocks {e : Dinode} : Still (freeBlocks e) := by
  unfold freeBlocks
  grind

@[grind ←] theorem still_shiftBlocks {dir : Dinode} {todo : ℕ} {previous_block : Buf} :
    Still (shiftBlocks dir todo i previous_block) := by
  induction todo generalizing i previous_block with
  | zero => exact keeps_pure
  | succ todo ih =>
    unfold shiftBlocks
    grind

@[grind ←] theorem still_rfsHookOpendir {dir : Dinode} : Still (rfsHookOpendir dir) := by
  unfold rfsHookOpendir
  grind

@[grind ←] theorem still_inodeOf : Still (inodeOf d) := by
  unfold inodeOf
  grind

@[grind ←] theorem still_rfsInodeOf : Still (rfsInodeOf d) := by
  unfold rfsInodeOf
  grind

@[grind ←] theorem still_parentInode {l : Looked} : Still (parentInode l) := by
  unfold parentInode
  grind

@[grind ←] theorem still_hashPutDentry : Still (hashPutDentry d) := by
  unfold hashPutDentry
  grind

@[grind ←] theorem still_hashEraseDentry : Still (hashEraseDentry d) := by
  unfold hashEraseDentry
  grind

@[grind ←] theorem still_hashPutVinode : Still (hashPutVinode v) := by
  unfold hashPutVinode
  grind

@[grind ←] theorem still_hashEraseVinode : Still (hashEraseVinode v) := by
  unfold hashEraseVinode
  grind

variable {flags : ℕ}

@[grind ←] theorem still_openMode : Still (openMode flags) := by
  unfold openMode
  grind

/-! ## Programs that write vinodes -/

def Old (b : St) (v : ℕ) (V : Vinode) : Prop := v < b.next → ∃ V0, b.vinodes v = some V0 ∧ V.inum = V0.inum

structure Quiet (b t s : St) : Prop where
  vinodes : ∀ v V, s.vinodes v = some V → Old b v V
  base : b.next ≤ t.next
  next : t.next ≤ s.next
  dentries : s.dentries = t.dentries
  pfiles : s.pfiles = t.pfiles
  root : s.vfs_root_dentry = t.vfs_root_dentry

theorem Quiet.congr (h : Quiet b t s) (ho : objects s' = objects s) : Quiet b t s' := by
  simp only [objects, Prod.mk.injEq] at ho
  obtain ⟨hv, hd, hp, hr, hn⟩ := ho
  exact ⟨hv ▸ h.vinodes, h.base, hn ▸ h.next, hd.trans h.dentries, hp.trans h.pfiles, hr.trans h.root⟩

variable {x : F α}

@[grind ←] theorem Still.quiet (h : Still x) : Stays (Quiet b t) x :=
  fun s r s' hs hx => ⟨hs.congr (h s r s' hx), trivial⟩

theorem quiet_vinodeAt : Yields (Quiet b t) (vinodeAt v) (Old b v) := by
  intro s V s' hs h
  obtain ⟨hV, rfl⟩ := (run_vinodeAt).1 h
  exact ⟨hs, hs.vinodes v V hV⟩

theorem quiet_setVinode (hV : Old b v V) (hi : W.inum = V.inum) : Stays (Quiet b t) (setVinode v W) := by
  refine yields_modify fun s hs => { hs with vinodes := ?_ }
  intro x X hX
  rcases Fs.update_cases hX with ⟨rfl, hx⟩ | ⟨-, hx⟩
  · cases hx
    unfold Old
    rw [hi]
    exact hV
  · exact hs.vinodes x X hx

theorem quiet_freeVinode : Stays (Quiet b t) (freeVinode v) := by
  refine yields_modify fun s hs => { hs with vinodes := ?_ }
  intro x X hX
  rcases Fs.update_cases hX with ⟨-, hx⟩ | ⟨-, hx⟩
  · cases hx
  · exact hs.vinodes x X hx

theorem quiet_allocVinode : Stays (Quiet b t) (allocVinode V) := by
  intro s r s' hs h
  unfold allocVinode at h
  rw [run_get_bind] at h
  obtain ⟨_, _, ⟨⟩, h2⟩ := run_bind.1 h
  cases h2
  refine ⟨⟨?_, hs.base, hs.next.trans (Nat.le_succ _), hs.dentries, hs.pfiles, hs.root⟩, trivial⟩
  intro x X hX
  rcases Fs.update_cases hX with ⟨rfl, -⟩ | ⟨-, hx⟩
  · intro hlt
    have := hs.base
    have := hs.next
    omega
  · exact hs.vinodes x X hx

theorem quiet_rfsUpdateVinode : Stays (Quiet b t) (rfsUpdateVinode v) :=
  (quiet_vinodeAt).bind fun _ hV => still_rfsReadDinode.quiet.bind fun _ _ => quiet_setVinode hV rfl

theorem quiet_refUp : Stays (Quiet b t) (refUp v) := (quiet_vinodeAt).bind fun _ hV => quiet_setVinode hV rfl

theorem quiet_rfsAddDirentry {inum : ℤ} : Stays (Quiet b t) (rfsAddDirentry v name inum) := by
  refine (quiet_vinodeAt).bind fun V hV => ?_
  split_ifs
  · exact yields_pure trivial
  · refine still_addr.quiet.bind fun _ _ => still_ramdiskRead.quiet.bind fun _ _ => yields_guard ?_
    refine yields_get_bind fun _ _ => still_setIobuffer.quiet.bind fun _ _ =>
      still_ramdiskWrite.quiet.bind fun _ _ => ?_
    exact Yields.bind (quiet_setVinode hV rfl) fun _ _ => still_rfsWriteBackVinode.quiet.bind fun _ _ =>
      yields_pure trivial

theorem quiet_blockFor : Stays (Quiet b t) (blockFor v i) := by
  refine (quiet_vinodeAt).bind fun V hV => ?_
  have haddr : Stays (Quiet b t) (do (← vinodeAt v).addr i) := (quiet_vinodeAt).bind fun _ _ => (still_addr).quiet
  split_ifs
  · exact still_rfsAllocBlock.quiet.bind fun _ _ => Yields.bind (quiet_setVinode hV rfl) fun _ _ => haddr
  · exact still_rfsAllocBlock.quiet.bind fun _ _ => Yields.bind (still_stop).quiet fun _ _ => haddr
  · exact haddr

theorem quiet_writeBlock {data : List UInt8} : Stays (Quiet b t) (writeBlock v data i) :=
  (quiet_blockFor).bind fun _ _ => yields_get_bind fun _ _ => still_setIobuffer.quiet.bind fun _ _ =>
    (still_ramdiskWrite).quiet

variable {buf : List UInt8}

theorem quiet_writeBlocks {k : ℕ} : Stays (Quiet b t) (writeBlocks v k buf i) := by
  induction k generalizing buf i with
  | zero => exact yields_pure trivial
  | succ k ih => exact (quiet_writeBlock).bind fun _ _ => ih

theorem quiet_writeAligned {k remain : ℕ} : Stays (Quiet b t) (writeAligned v k remain buf i) := by
  refine (quiet_writeBlocks).bind fun _ _ => ?_
  split_ifs
  · exact quiet_writeBlock
  · exact yields_pure trivial

theorem quiet_rfsWrite {offset : ℕ} : Stays (Quiet b t) (rfsWrite v buf offset) := by
  refine (quiet_vinodeAt).bind fun V hV => yields_guard ?_
  have hrest : Stays (Quiet b t) (do
      let V ← vinodeAt v
      setVinode v { V with size := max V.size (offset + buf.length) }
      return offset + buf.length) := by
    refine (quiet_vinodeAt).bind fun V hV => Yields.bind (quiet_setVinode hV rfl) fun _ _ => yields_pure trivial
  grind [quiet_writeAligned]

theorem quiet_rfsLookup : Stays (Quiet b t) (rfsLookup v name) := by
  refine (quiet_vinodeAt).bind fun V _ => still_findDirentry.quiet.bind fun o _ => ?_
  cases o with
  | none => exact yields_pure trivial
  | some i =>
    exact still_direntryInum.quiet.bind fun _ _ => (quiet_allocVinode).bind fun _ _ =>
      (quiet_rfsUpdateVinode).bind fun _ _ => yields_pure trivial

theorem quiet_rfsCreate : Stays (Quiet b t) (rfsCreate v name) := by
  refine still_newInode.quiet.bind fun n _ => (quiet_allocVinode).bind fun w _ =>
    (quiet_rfsUpdateVinode).bind fun _ _ => ?_
  refine (quiet_rfsAddDirentry).bind fun ok _ => ?_
  split_ifs <;> exact yields_pure trivial

theorem quiet_rfsMkdir : Stays (Quiet b t) (rfsMkdir v name) := by
  refine still_newInode.quiet.bind fun n _ => (quiet_rfsAddDirentry).bind fun ok _ => ?_
  split_ifs
  · exact (quiet_allocVinode).bind fun w _ => (quiet_rfsUpdateVinode).bind fun _ _ => yields_pure trivial
  · exact yields_pure trivial

theorem quiet_rfsLink : Stays (Quiet b t) (rfsLink w name v) := by
  refine (quiet_vinodeAt).bind fun V hV => yields_guard ?_
  refine Yields.bind (quiet_setVinode hV rfl) fun _ _ => (quiet_rfsAddDirentry).bind fun ok _ => ?_
  split_ifs
  · exact still_rfsWriteBackVinode.quiet.bind fun _ _ => yields_pure trivial
  · exact yields_pure trivial

theorem quiet_removeDirentry : Stays (Quiet b t) (removeDirentry v i) := by
  refine (quiet_vinodeAt).bind fun P hP => still_addr.quiet.bind fun _ _ => still_ramdiskRead.quiet.bind fun _ _ => ?_
  refine yields_get_bind fun _ _ => still_shiftBlocks.quiet.bind fun _ _ => yields_get_bind fun _ _ => ?_
  refine still_setIobuffer.quiet.bind fun _ _ => still_addr.quiet.bind fun _ _ =>
    still_ramdiskWrite.quiet.bind fun _ _ => ?_
  split_ifs
  · refine still_addr.quiet.bind fun _ _ => still_rfsFreeBlock.quiet.bind fun _ _ => ?_
    exact Yields.bind (quiet_setVinode hP rfl) fun _ _ => (still_rfsWriteBackVinode).quiet
  · exact Yields.bind (quiet_setVinode hP rfl) fun _ _ => (still_rfsWriteBackVinode).quiet

theorem quiet_dropLink {inum : ℤ} : Stays (Quiet b t) (dropLink v inum) := by
  refine still_rfsReadDinode.quiet.bind fun e _ => (quiet_vinodeAt).bind fun V hV => yields_guard ?_
  refine Yields.bind (quiet_setVinode hV rfl) fun _ _ => ?_
  split_ifs
  · exact still_freeBlocks.quiet.bind fun _ _ => (still_rfsWriteDinode).quiet
  · exact (still_rfsWriteDinode).quiet

theorem quiet_rfsUnlink : Stays (Quiet b t) (rfsUnlink w name v) := by
  refine (quiet_vinodeAt).bind fun P _ => yields_guard ?_
  refine still_findDirentry.quiet.bind fun o _ => ?_
  cases o with
  | none => exact yields_pure trivial
  | some i => grind [quiet_dropLink, quiet_removeDirentry]

theorem quiet_refDown : Stays (Quiet b t) (do
    let V ← vinodeAt v
    setVinode v { V with ref := V.ref - 1 }) :=
  (quiet_vinodeAt).bind fun _ hV => quiet_setVinode hV rfl

theorem quiet_dropVinode : Stays (Quiet b t) (dropVinode v) :=
  still_hashEraseVinode.quiet.bind fun _ _ => quiet_freeVinode

/-! ## Lookups, creations and links -/

variable {m : ℕ} {D : Dentry} {inode parent : Option ℕ} {path : CString}

/-- dentries have come in, and nobody has opened them; `m` objects have been made at least -/
structure Looks (b : St) (m : ℕ) (s : St) : Prop where
  vinodes : ∀ v V, s.vinodes v = some V → Old b v V
  base : b.next ≤ m
  next : m ≤ s.next
  dentries : ∀ d < b.next, s.dentries d = b.dentries d
  new : ∀ d D, b.next ≤ d → s.dentries d = some D → D.d_ref = 0
  fresh : ∀ d, s.next ≤ d → s.dentries d = none
  pfiles : s.pfiles = b.pfiles
  root : s.vfs_root_dentry = b.vfs_root_dentry

def Fresh (s : St) : Prop := ∀ d, s.next ≤ d → s.dentries d = none

theorem Fresh.looks (h : Fresh b) : Looks b b.next b where
  vinodes _ V hV _ := ⟨V, hV, rfl⟩
  base := le_rfl
  next := le_rfl
  dentries _ _ := rfl
  new d D hd hD := by
    rw [h d hd] at hD
    cases hD
  fresh := h
  pfiles := rfl
  root := rfl

variable {Q : α → Prop}

theorem Looks.quiet (hs : Looks b m s) (hq : Quiet b s s') : Looks b m s' := by
  refine ⟨hq.vinodes, hs.base, hs.next.trans hq.next, ?_, ?_, ?_, hq.pfiles.trans hs.pfiles, hq.root.trans hs.root⟩
  · rw [hq.dentries]
    exact hs.dentries
  · rw [hq.dentries]
    exact hs.new
  · intro d hd
    rw [hq.dentries]
    exact hs.fresh d (hq.next.trans hd)

theorem looks_of_quiet (h : ∀ t, Yields (Quiet b t) x Q) : Yields (Looks b m) x Q := by
  intro s r s' hs hx
  obtain ⟨hq, hr⟩ := h s s r s' ⟨hs.vinodes, hs.base.trans hs.next, le_rfl, rfl, rfl, rfl⟩ hx
  exact ⟨hs.quiet hq, hr⟩

theorem Still.looks (h : Still x) : Stays (Looks b m) x := looks_of_quiet fun _ => h.quiet

theorem looks_dentryAt : Yields (Looks b m) (dentryAt d) fun D => b.next ≤ d → D.d_ref = 0 := by
  intro s D s' hs h
  obtain ⟨hD, rfl⟩ := (run_dentryAt).1 h
  exact ⟨hs, fun hd => hs.new d D hd hD⟩

theorem Looks.update {o : Option Dentry} {n k : ℕ} (hs : Looks b m s) (hb : b.next ≤ d)
    (ho : ∀ D, o = some D → D.d_ref = 0 ∧ d < n) (hn : s.next ≤ n) (hk : b.next ≤ k) (hkn : k ≤ n) :
    Looks b k { s with dentries := Function.update s.dentries d o, next := n } := by
  refine ⟨hs.vinodes, hk, hkn, ?_, ?_, ?_, hs.pfiles, hs.root⟩
  · intro x hx
    exact (update_of_ne (by omega) _ _).trans (hs.dentries x hx)
  · intro x X hx hX
    rcases update_cases hX with ⟨-, he⟩ | ⟨-, he⟩
    · exact (ho X he).1
    · exact hs.new x X hx he
  · intro x hx
    rcases eq_or_ne x d with rfl | hne
    · cases o with
      | none => exact update_self _ _ _
      | some D => exact absurd (ho D rfl).2 (not_lt.2 hx)
    · exact (update_of_ne hne _ _).trans (hs.fresh x (hn.trans hx))

theorem looks_setDentry (hb : b.next ≤ d) (hm : d < m) (hD : D.d_ref = 0) : Stays (Looks b m) (setDentry d D) := by
  refine yields_modify fun s hs => hs.update hb ?_ le_rfl hs.base hs.next
  intro D' he
  cases he
  exact ⟨hD, hm.trans_le hs.next⟩

theorem looks_freeDentry (hb : b.next ≤ d) : Stays (Looks b m) (freeDentry d) :=
  yields_modify fun _ hs => hs.update hb (fun _ he => nomatch he) le_rfl hs.base hs.next

theorem looks_allocVfsDentry_bind {f : ℕ → F α}
    (hf : ∀ d, b.next ≤ d → Yields (Looks b (d + 1)) (f d) Q) :
    Yields (Looks b m) (allocVfsDentry name inode parent >>= f) Q := by
  intro s r s' hs h
  obtain ⟨d, s1, h1, h2⟩ := run_bind.1 h
  unfold allocVfsDentry at h1
  rw [run_get_bind] at h1
  obtain ⟨_, _, ⟨⟩, h4⟩ := run_bind.1 h1
  have hle := hs.base.trans hs.next
  have hset : Looks b (s.next + 1)
      { s with dentries := update s.dentries s.next (some ⟨name, 0, inode, parent⟩), next := s.next + 1 } := by
    refine hs.update hle ?_ (Nat.le_succ _) (by omega) le_rfl
    intro D he
    cases he
    exact ⟨rfl, Nat.lt_succ_self _⟩
  have hup : s.next = d ∧ Looks b (s.next + 1) s1 := by
    cases inode with
    | none =>
      cases h4
      exact ⟨rfl, hset⟩
    | some v =>
      obtain ⟨_, s3, h5, h6⟩ := run_bind.1 h4
      cases h6
      exact ⟨rfl, ((looks_of_quiet fun _ => quiet_refUp) _ _ _ hset h5).1⟩
  obtain ⟨rfl, hup⟩ := hup
  obtain ⟨hend, hr⟩ := hf s.next hle _ _ _ hup h2
  have := hs.next
  have := hend.next
  exact ⟨⟨hend.vinodes, hs.base, by omega, hend.dentries, hend.new, hend.fresh, hend.pfiles, hend.root⟩, hr⟩

theorem looks_lookupName : Stays (Looks b m) (lookupName v name) := by
  refine yields_get_bind fun s _ => ?_
  cases s.dentry_hash (some v, name) with
  | some d => exact yields_pure trivial
  | none =>
    refine looks_allocVfsDentry_bind fun d hd => ?_
    refine still_rfsInodeOf.looks.bind fun _ _ => (looks_of_quiet fun _ => quiet_rfsLookup).bind fun o _ => ?_
    cases o with
    | none => exact (looks_freeDentry hd).bind fun _ _ => yields_pure trivial
    | some found =>
      refine (looks_dentryAt).bind fun D hD => yields_get_bind fun s1 _ => still_vinodeAt.looks.bind fun F _ => ?_
      cases s1.vinode_hash F.inum with
      | some same =>
        grind [Yields.bind, looks_setDentry, looks_of_quiet, quiet_refUp, quiet_freeVinode]
      | none =>
        grind [Yields.bind, looks_setDentry, looks_of_quiet, quiet_refUp]

theorem looks_lookupTokens {ts : List CString} : Stays (Looks b m) (lookupTokens ts v parent) := by
  induction ts generalizing v parent with
  | nil => exact yields_pure trivial
  | cons token rest ih =>
    unfold lookupTokens
    split_ifs
    · exact ih
    · refine (looks_dentryAt).bind fun D _ => ?_
      cases D.parent with
      | none => exact ih
      | some up => exact (looks_dentryAt).bind fun _ _ => ih
    · grind [looks_lookupName]

theorem looks_lookupFinalDentry : Stays (Looks b m) (lookupFinalDentry path d) := by
  unfold lookupFinalDentry
  exact yields_guard (yields_get_bind fun _ _ => looks_lookupTokens)

theorem looks_getPathStartDentry : Stays (Looks b m) (getPathStartDentry p path) :=
  yields_get_bind fun _ _ => yields_pure trivial

theorem looks_attachInode (hb : b.next ≤ d) (hm : d < m) : Stays (Looks b m) (attachInode d v) := by
  refine (looks_dentryAt).bind fun D hD => Yields.bind (looks_setDentry hb hm (hD hb)) fun _ _ => ?_
  grind [looks_of_quiet, quiet_refUp, still_hashPutVinode]

theorem looks_vfsCreate {l : Looked} : Stays (Looks b m) (vfsCreate path l) := by
  refine looks_allocVfsDentry_bind fun d hd => still_parentInode.looks.bind fun _ _ => ?_
  refine (looks_of_quiet fun _ => quiet_rfsCreate).bind fun o _ => ?_
  cases o with
  | none => exact yields_throw
  | some v => exact (looks_attachInode hd (by omega)).bind fun _ _ => yields_pure trivial

theorem looks_openDentry : Stays (Looks b m) (openDentry p path flags) := by
  refine (looks_getPathStartDentry).bind fun _ _ => (looks_lookupFinalDentry).bind fun l _ => ?_
  cases l.dentry with
  | some d => exact yields_pure trivial
  | none => grind [looks_vfsCreate]

theorem looks_vfsMkdir : Stays (Looks b m) (vfsMkdir p path) := by
  refine (looks_getPathStartDentry).bind fun _ _ => (looks_lookupFinalDentry).bind fun l _ => ?_
  split_ifs
  · exact yields_pure trivial
  · exact yields_pure trivial
  · refine looks_allocVfsDentry_bind fun d hd => still_parentInode.looks.bind fun _ _ => ?_
    refine (looks_of_quiet fun _ => quiet_rfsMkdir).bind fun o _ => ?_
    cases o with
    | none => exact (looks_freeDentry hd).bind fun _ _ => yields_pure trivial
    | some v => exact (looks_attachInode hd (by omega)).bind fun _ _ => yields_pure trivial

theorem looks_vfsLink {newpath : CString} : Stays (Looks b m) (vfsLink p path newpath) := by
  refine (looks_getPathStartDentry).bind fun _ _ => (looks_lookupFinalDentry).bind fun l _ => ?_
  cases l.dentry with
  | none => exact yields_pure trivial
  | some d =>
    refine still_inodeOf.looks.bind fun _ _ => still_vinodeAt.looks.bind fun V _ => ?_
    split_ifs
    · exact yields_pure trivial
    refine (looks_getPathStartDentry).bind fun _ _ => (looks_lookupFinalDentry).bind fun l' _ => ?_
    grind [looks_allocVfsDentry_bind, looks_of_quiet, quiet_rfsLink]

/-! ## Objects that stay -/

structure Kin (b s : St) : Prop where
  vinodes : ∀ v V, s.vinodes v = some V → Old b v V
  dentries : ∀ d D, s.dentries d = some D → d < b.next → ∃ D0, b.dentries d = some D0 ∧ D.dentry_inode = D0.dentry_inode
  next : b.next ≤ s.next
  root : s.vfs_root_dentry = b.vfs_root_dentry

theorem quiet_self (s : St) : Quiet s s s := ⟨fun _ V hV _ => ⟨V, hV, rfl⟩, le_rfl, le_rfl, rfl, rfl, rfl⟩

theorem quiet_run {r : α} (h : ∀ b t, Yields (Quiet b t) x Q) (hx : x s = .ok (r, s')) :
    Quiet s s s' := (h s s s r s' (quiet_self s) hx).1

theorem Old.trans (h : Kin b t) (hv : Old t v V) : Old b v V := by
  intro hlt
  obtain ⟨V1, hV1, hi1⟩ := hv (hlt.trans_le h.next)
  obtain ⟨V0, hV0, hi0⟩ := h.vinodes v V1 hV1 hlt
  exact ⟨V0, hV0, hi1.trans hi0⟩

theorem Looks.kin (h : Looks b m s) : Kin b s := by
  refine ⟨h.vinodes, fun d D hD hd => ?_, h.base.trans h.next, h.root⟩
  rw [h.dentries d hd] at hD
  exact ⟨D, hD, rfl⟩

theorem Kin.quiet (h : Kin b s) (hq : Quiet s s s') : Kin b s' := by
  refine ⟨fun v V hV => (hq.vinodes v V hV).trans h, ?_, h.next.trans hq.next, hq.root.trans h.root⟩
  rw [hq.dentries]
  exact h.dentries

theorem Kin.setPfiles {pf : ℕ → Pfiles} (h : Kin b s) : Kin b { s with pfiles := pf } := { h with }

theorem Kin.setDentry {D' : Dentry} (h : Kin b s) (hD : s.dentries d = some D) (hi : D'.dentry_inode = D.dentry_inode) :
    Kin b { s with dentries := update s.dentries d (some D') } := by
  refine ⟨h.vinodes, fun x X hX hx => ?_, h.next, h.root⟩
  rcases update_cases hX with ⟨rfl, he⟩ | ⟨-, he⟩
  · cases he
    rw [hi]
    exact h.dentries x D hD hx
  · exact h.dentries x X he hx

theorem Kin.freeDentry (h : Kin b s) : Kin b { s with dentries := update s.dentries d none } := by
  refine ⟨h.vinodes, fun x X hX hx => ?_, h.next, h.root⟩
  rcases update_cases hX with ⟨-, he⟩ | ⟨-, he⟩
  · cases he
  · exact h.dentries x X he hx

theorem Fresh.quiet (h : Fresh s) (hq : Quiet s s s') : Fresh s' := by
  intro d hd
  rw [hq.dentries]
  exact h d (hq.next.trans hd)

theorem Fresh.setDentry (h : Fresh s) (hD : s.dentries d = some D) {o : Option Dentry} :
    Fresh { s with dentries := update s.dentries d o } := by
  intro x hx
  have hne : x ≠ d := ne_of_none hD (h x hx)
  exact (update_of_ne hne _ _).trans (h x hx)

/-! ## The machine of the opened files -/

def opens (s : St) : Openers.St where
  vfs_root_dentry := s.vfs_root_dentry
  d_ref d := (s.dentries d).map (·.d_ref)
  pfiles := s.pfiles
  live _ := true

theorem opens_d_ref : (opens s).d_ref d = (s.dentries d).map (·.d_ref) := rfl

theorem opens_quiet (h : Quiet s s s') : opens s' = opens s := by
  unfold opens
  rw [h.dentries, h.pfiles, h.root]

theorem opens_setDentry {o : Option Dentry} : opens { s with dentries := update s.dentries d o } =
    { opens s with d_ref := update (opens s).d_ref d (o.map (·.d_ref)) } := by
  refine Openers.St.ext rfl (funext fun x => ?_) rfl rfl
  show (update s.dentries d o x).map (·.d_ref) = update (opens s).d_ref d (o.map (·.d_ref)) x
  by_cases hx : x = d
  · rw [hx, update_self, update_self]
  · rw [update_of_ne hx, update_of_ne hx]
    rfl

def upTo (t : Openers.St) (n : ℕ) : Openers.St := { t with d_ref := fun d => if d < n then t.d_ref d else none }

theorem upTo_succ {t : Openers.St} {n : ℕ} (h : t.d_ref n = none ∨ t.d_ref n = some 0) :
    upTo t (n + 1) = upTo t n ∨ Openers.step (upTo t n) (.lookup n) = .ok (upTo t (n + 1)) := by
  have hnone : (upTo t n).d_ref n = none := if_neg (lt_irrefl n)
  have hother : ∀ d, d ≠ n → (upTo t (n + 1)).d_ref d = (upTo t n).d_ref d := by
    intro d hd
    simp only [upTo, show d < n + 1 ↔ d < n by omega]
  have hself : (upTo t (n + 1)).d_ref n = t.d_ref n := if_pos (Nat.lt_succ_self n)
  rcases h with h | h
  · refine .inl (Openers.St.ext rfl (funext fun d => ?_) rfl rfl)
    grind
  · refine .inr ((Openers.step_lookup hnone).trans
      (congrArg Except.ok (Openers.St.ext rfl (funext fun d => ?_) rfl rfl)))
    grind

/-- a run of the machine of the opened files from one state to another, in which offsets may be moved or not -/
def Runs (moving : Prop) (b s : St) : Prop :=
  Reach Openers.step (fun u op => Openers.Orderly u op ∧ (op.Unmoved ∨ moving)) (· = opens b) (opens s)

variable {moving : Prop}

theorem looks_opens (hfresh : Fresh b) (h : Looks b m s) : Runs moving b s := by
  have key : ∀ n, b.next ≤ n →
    Reach Openers.step (fun u op => Openers.Orderly u op ∧ (op.Unmoved ∨ moving)) (· = opens b) (upTo (opens s) n) := by
    intro n hn
    induction n, hn using Nat.le_induction with
    | base =>
      refine .init (Openers.St.ext h.root (funext fun d => ?_) h.pfiles rfl)
      show (if d < b.next then (opens s).d_ref d else none) = (opens b).d_ref d
      split_ifs with hd
      · rw [opens_d_ref, opens_d_ref, h.dentries d hd]
      · rw [opens_d_ref, hfresh d (not_lt.1 hd)]
        rfl
    | succ n hn ih =>
      have hcases : (opens s).d_ref n = none ∨ (opens s).d_ref n = some 0 := by
        cases hD : s.dentries n with
        | none => exact .inl (by rw [opens_d_ref, hD]; rfl)
        | some D => exact .inr (by rw [opens_d_ref, hD, Option.map_some, h.new n D hn hD])
      rcases upTo_succ hcases with he | hstep
      · rw [he]
        exact ih
      · exact .step (.lookup n) ih ⟨⟨trivial, trivial⟩, .inl trivial⟩ hstep
  have hlast : upTo (opens s) s.next = opens s := by
    refine Openers.St.ext rfl (funext fun d => ?_) rfl rfl
    show (if d < s.next then (opens s).d_ref d else none) = (opens s).d_ref d
    split_ifs with hd
    · rfl
    · rw [opens_d_ref, h.fresh d (not_lt.1 hd)]
      rfl
  unfold Runs
  rw [← hlast]
  exact key s.next (h.base.trans h.next)

/-! ## The calls -/

/-- what a call does to the objects -/
structure Ran (moving : Prop) (b s : St) : Prop where
  run : Runs moving b s
  fresh : Fresh s
  kin : Kin b s

theorem Looks.ran (hfresh : Fresh b) (h : Looks b m s) : Ran moving b s := ⟨looks_opens hfresh h, h.fresh, h.kin⟩

theorem Ran.quiet (h : Ran moving b s) (hq : Quiet s s s') : Ran moving b s' := by
  refine ⟨?_, h.fresh.quiet hq, h.kin.quiet hq⟩
  unfold Runs
  rw [opens_quiet hq]
  exact h.run

theorem looks_run {r : α} (h : Yields (Looks s s.next) x Q) (hfresh : Fresh s)
    (hx : x s = .ok (r, s')) : Looks s s.next s' := (h s r s' hfresh.looks hx).1

theorem still_run {r : α} (h : Still x) (hx : x s = .ok (r, s')) : Quiet s s s' := quiet_run (fun _ _ => h.quiet) hx

theorem Ran.step (h : Ran moving b s) (op : Openers.Op) (hop : op.Unmoved ∨ moving) (hc : Openers.Orderly (opens s) op)
    (hstep : Openers.step (opens s) op = .ok (opens s')) (hfresh : Fresh s') (hkin : Kin b s') : Ran moving b s' :=
  ⟨.step op h.run ⟨hc, hop⟩ hstep, hfresh, hkin⟩

theorem openMode_run {mode : Bool × Bool} {u : Openers.St} (h : openMode flags s = .ok (mode, s')) :
    Openers.openMode flags u = .ok (mode, u) := by
  unfold openMode at h
  unfold Openers.openMode
  generalize flags &&& MASK_FILEMODE = k at h
  match k with
  | 0 =>
    cases h
    rfl
  | 1 =>
    cases h
    rfl
  | 2 =>
    cases h
    rfl
  | k + 3 => cases h

/-- a dentry is opened once more -/
def St.opened (s : St) (d : ℕ) (D : Dentry) : St :=
  { s with dentries := update s.dentries d (some { D with d_ref := D.d_ref + 1 }) }

variable {file : File}

theorem run_allocVfsFile {readable writable : Bool} (h : allocVfsFile d readable writable s = .ok (file, s')) :
    ∃ D, s.dentries d = some D ∧ file = Openers.newFile d (readable, writable) ∧ s' = s.opened d D := by
  obtain ⟨D, s1, h1, h2⟩ := run_bind.1 h
  obtain ⟨hD, rfl⟩ := (run_dentryAt).1 h1
  obtain ⟨_, _, ⟨⟩, h4⟩ := run_bind.1 h2
  cases h4
  exact ⟨D, hD, rfl, rfl⟩

def Gives (b : St) (mode : Bool × Bool → Prop) (o : Option File) (s' : St) : Prop :=
  o = none ∧ Looks b b.next s' ∨ ∃ s1 d D m, mode m ∧ Looks b b.next s1 ∧ s1.dentries d = some D ∧
    o = some (Openers.newFile d m) ∧
    Quiet (s1.opened d D) (s1.opened d D) s'

theorem run_vfsOpen {o : Option File} (hfresh : Fresh s) (h : vfsOpen p path flags s = .ok (o, s')) :
    Gives s (fun m => ∀ u, Openers.openMode flags u = .ok (m, u)) o s' := by
  obtain ⟨found, s1, h1, h2⟩ := run_bind.1 h
  have hlooks := looks_run looks_openDentry hfresh h1
  cases found with
  | none =>
    cases h2
    exact .inl ⟨rfl, hlooks⟩
  | some d =>
    obtain ⟨-, -, V, -, -, -, h6⟩ := run_inodeOf_bind h2
    by_cases htype : V.type ≠ FILE_I
    · rw [if_pos htype] at h6
      cases h6
      exact .inl ⟨rfl, hlooks⟩
    · rw [if_neg htype] at h6
      obtain ⟨mode, s4, h7, h8⟩ := run_bind.1 h6
      have hlooks4 := ((still_openMode).looks _ _ _ hlooks h7).1
      obtain ⟨file, s5, h9, h10⟩ := run_bind.1 h8
      obtain ⟨D, hD, rfl, rfl⟩ := run_allocVfsFile h9
      obtain ⟨_, s6, h11, h12⟩ := run_bind.1 h10
      cases h12
      exact .inr ⟨s4, d, D, mode, fun u => openMode_run h7, hlooks4, hD, rfl, still_run still_rfsInodeOf h11⟩

theorem run_vfsOpendir {o : Option File} (hfresh : Fresh s) (h : vfsOpendir p path s = .ok (o, s')) :
    Gives s (· = (true, false)) o s' := by
  obtain ⟨start, s1, h1, h2⟩ := run_bind.1 h
  obtain ⟨l, s2, h3, h4⟩ := run_bind.1 h2
  have hlooks := (looks_lookupFinalDentry _ _ _ (looks_run looks_getPathStartDentry hfresh h1) h3).1
  cases hl : l.dentry with
  | none =>
    rw [hl] at h4
    cases h4
    exact .inl ⟨rfl, hlooks⟩
  | some d =>
    rw [hl] at h4
    obtain ⟨-, -, V, -, -, -, h8⟩ := run_inodeOf_bind h4
    by_cases htype : V.type ≠ DIR_I
    · rw [if_pos htype] at h8
      cases h8
      exact .inl ⟨rfl, hlooks⟩
    · rw [if_neg htype] at h8
      obtain ⟨file, s5, h9, h10⟩ := run_bind.1 h8
      obtain ⟨D, hD, rfl, rfl⟩ := run_allocVfsFile h9
      have hrest : ∀ file : File, Yields (Quiet (s2.opened d D) (s2.opened d D)) (do
          let V ← vinodeAt (← inodeOf d)
          if !V.host then rfsHookOpendir V.toDinode
          return some file) (· = some file) := by
        intro file
        grind
      obtain ⟨hquiet, ho⟩ := hrest _ _ _ _ (quiet_self _) h10
      exact .inr ⟨s2, d, D, _, rfl, hlooks, hD, ho, hquiet⟩

variable {r : ℤ}

theorem run_installFile (h : installFile p file s = .ok (r, s')) :
    s' = { s with pfiles := update s.pfiles p (Openers.installed (s.pfiles p) file) } := by
  unfold installFile at h
  rw [run_get_bind] at h
  obtain ⟨_, _, ⟨⟩, h2⟩ := run_bind.1 h
  cases h2
  rfl

theorem ran_install {s1 : St} {mode : Bool × Bool} (op : Openers.Op) (hfresh : Fresh b) (hlooks : Looks b b.next s)
    (hD : s.dentries d = some D) (hq : Quiet (s.opened d D) (s.opened d D) s1)
    (hs' : s' = { s1 with pfiles := update s1.pfiles p (Openers.installed (s1.pfiles p) (Openers.newFile d mode)) })
    (hop : op.Unmoved) (hc : Openers.Orderly (opens s) op)
    (hstep : Openers.step (opens s) op = .ok ((opens s).opening p d D.d_ref mode)) : Ran moving b s' := by
  have hopens : opens s1 = opens (s.opened d D) := opens_quiet hq
  have hend : opens s' = (opens s).opening p d D.d_ref mode := by
    have hpfiles : s1.pfiles = s.pfiles := hq.pfiles
    rw [hs', hpfiles]
    show ({ opens s1 with pfiles := _ } : Openers.St) = _
    rw [hopens, St.opened, opens_setDentry]
    rfl
  have hfresh1 : Fresh s1 := Fresh.quiet (Fresh.setDentry hlooks.fresh hD) hq
  have hkin1 : Kin b s1 := Kin.quiet (s := s.opened d D) (hlooks.kin.setDentry hD rfl) hq
  refine (hlooks.ran hfresh).step op (.inl hop) hc (hend ▸ hstep) ?_ ?_
  · rw [hs']
    exact hfresh1
  · rw [hs']
    exact hkin1.setPfiles

theorem ran_open (hfresh : Fresh s) (h : doOpen p path flags s = .ok (r, s')) : Ran moving s s' := by
  obtain ⟨o, s1, h1, h2⟩ := run_bind.1 h
  obtain ⟨rfl, hlooks⟩ | ⟨s2, d, D, mode, hmode, hlooks, hD, rfl, hq⟩ := run_vfsOpen hfresh h1
  · cases h2
    exact hlooks.ran hfresh
  · dsimp only at h2
    rw [run_get_bind] at h2
    obtain ⟨hfull, h3⟩ := run_guard h2
    have hroom : ((opens s2).pfiles p).nfiles < MAX_FILES := by
      have hpfiles : s1.pfiles = s2.pfiles := hq.pfiles
      rw [hpfiles] at hfull
      exact not_le.1 hfull
    refine ran_install (.open p (some (d, FILE_I)) flags) hfresh hlooks hD hq (run_installFile h3) trivial ⟨trivial,
      trivial⟩ ?_
    exact Openers.step_open rfl (hmode _) (by rw [opens_d_ref, hD]; rfl) hroom

theorem ran_opendir (hfresh : Fresh s) (h : doOpendir p path s = .ok (r, s')) : Ran moving s s' := by
  obtain ⟨o, s1, h1, h2⟩ := run_bind.1 h
  obtain ⟨rfl, hlooks⟩ | ⟨s2, d, D, mode, rfl, hlooks, hD, rfl, hq⟩ := run_vfsOpendir hfresh h1
  · cases h2
    exact hlooks.ran hfresh
  · dsimp only at h2
    rw [run_get_bind] at h2
    obtain ⟨hfull, h3⟩ := run_guard h2
    have hroom : freeEntry ((opens s2).pfiles p) ≠ MAX_FILES := by
      have hpfiles : s1.pfiles = s2.pfiles := hq.pfiles
      rw [hpfiles] at hfull
      exact hfull
    refine ran_install (.opendir p (some (d, DIR_I))) hfresh hlooks hD hq (run_installFile h3) trivial ⟨trivial,
      trivial⟩ ?_
    exact Openers.step_opendir rfl (by rw [opens_d_ref, hD]; rfl) hroom

variable {fd : ℤ}

theorem run_getOpenedFile (h : getOpenedFile p fd s = .ok (file, s')) :
    (s.pfiles p).opened_files (fileEntry fd) = some file ∧ s = s' := by
  unfold getOpenedFile at h
  rw [run_get_bind] at h
  cases hf : (s.pfiles p).opened_files (fileEntry fd) with
  | none =>
    simp only [hf] at h
    cases h
  | some file' =>
    simp only [hf] at h
    cases h
    exact ⟨rfl, rfl⟩

theorem run_putOpenedFile {entry : ℕ} {u : Unit} (h : putOpenedFile p entry file s = .ok (u, s')) :
    s' = { s with pfiles := update s.pfiles p (Openers.put (s.pfiles p) entry file) } := by
  unfold putOpenedFile at h
  rw [run_get_bind] at h
  exact (run_modify.1 h).symm

theorem ran_move {offset : ℕ} {s1 : St} {u : Unit} (hfresh : Fresh s)
    (hfile : (s.pfiles p).opened_files (fileEntry fd) = some file) (hq : Quiet s s s1)
    (h : putOpenedFile p (fileEntry fd) { file with offset := offset } s1 = .ok (u, s')) : Ran True s s' := by
  have hran : Ran True s s1 := (hfresh.looks.ran hfresh).quiet hq
  obtain rfl := run_putOpenedFile h
  rw [← hq.pfiles] at hfile
  exact hran.step (.move p fd offset) (.inr trivial) ⟨trivial,
    trivial⟩ (Openers.step_move rfl hfile) hran.fresh hran.kin.setPfiles

theorem still_vfsLseek {offset whence : ℤ} : Still (vfsLseek file offset whence) := by
  refine (still_inodeOf).bind fun _ => (still_vinodeAt).bind fun V => ?_
  grind

theorem quiet_vfsWrite : Stays (Quiet b t) (vfsWrite file buf) := by
  grind [vfsWrite, quiet_rfsWrite]

theorem ran_write (hfresh : Fresh s) (h : doWrite p fd buf s = .ok (r, s')) : Ran True s s' := by
  obtain ⟨file, s1, h1, h2⟩ := run_bind.1 h
  obtain ⟨hfile, rfl⟩ := run_getOpenedFile h1
  by_cases hw : (!file.writable) = true
  · simp only [hw, if_true] at h2
    cases h2
  · simp only [hw, Bool.false_eq_true, if_false] at h2
    obtain ⟨o, s2, h3, h4⟩ := run_bind.1 h2
    have hq : Quiet s s s2 := quiet_run (fun _ _ => quiet_vfsWrite) h3
    cases o with
    | none =>
      cases h4
      exact (hfresh.looks.ran hfresh).quiet hq
    | some offset =>
      grind [ran_move]

theorem ran_lseek {offset whence : ℤ} (hfresh : Fresh s) (h : doLseek p fd offset whence s = .ok (r, s')) :
    Ran True s s' := by
  obtain ⟨file, s1, h1, h2⟩ := run_bind.1 h
  obtain ⟨hfile, rfl⟩ := run_getOpenedFile h1
  obtain ⟨o, s2, h3, h4⟩ := run_bind.1 h2
  have hq : Quiet s s s2 := still_run still_vfsLseek h3
  cases o with
  | none =>
    cases h4
    exact (hfresh.looks.ran hfresh).quiet hq
  | some new_offset => grind [ran_move]

theorem ran_ccwd (hfresh : Fresh s) (h : doCcwd p path s = .ok (r, s')) : Ran moving s s' := by
  unfold doCcwd at h
  rw [run_get_bind] at h
  obtain ⟨l, s1, h1, h2⟩ := run_bind.1 h
  have hlooks := looks_run looks_lookupFinalDentry hfresh h1
  cases hl : l.dentry with
  | none =>
    rw [hl] at h2
    cases h2
    exact hlooks.ran hfresh
  | some d =>
    rw [hl] at h2
    obtain ⟨-, -, V, -, -, -, h6⟩ := run_inodeOf_bind h2
    by_cases htype : V.type ≠ DIR_I
    · rw [if_pos htype] at h6
      cases h6
      exact hlooks.ran hfresh
    · rw [if_neg htype] at h6
      obtain ⟨_, _, ⟨⟩, h8⟩ := run_bind.1 h6
      cases h8
      have hran : Ran moving s s1 := hlooks.ran hfresh
      refine hran.step (.ccwd p d) (.inl trivial) ⟨trivial, trivial⟩ ?_ hran.fresh hran.kin.setPfiles
      rw [← hlooks.pfiles]
      rfl

def St.freed (s : St) (d : ℕ) : St := { s with dentries := update s.dentries d none }

theorem Quiet.trans {s1 : St} (h : Quiet s s s1) (h' : Quiet s1 s1 s') : Quiet s s s' := by
  refine ⟨fun v V hV hlt => ?_, le_rfl, h.next.trans h'.next, h'.dentries.trans h.dentries, h'.pfiles.trans h.pfiles,
    h'.root.trans h.root⟩
  obtain ⟨V1, hV1, hi1⟩ := h'.vinodes v V hV (hlt.trans_le h.next)
  obtain ⟨V0, hV0, hi0⟩ := h.vinodes v V1 hV1 hlt
  exact ⟨V0, hV0, hi1.trans hi0⟩

theorem Quiet.freed {s1 : St} (h : Quiet s s s1) : Quiet (s.freed d) (s.freed d) (s1.freed d) :=
  ⟨h.vinodes, le_rfl, h.next, by rw [St.freed, St.freed, h.dentries], h.pfiles, h.root⟩

theorem run_dropDentry {u : Unit} (hD : s.dentries d = some D) (hle : D.d_ref ≤ 0)
    (h : dropDentry d v s = .ok (u, s')) :
    Quiet (s.freed d) (s.freed d) s' := by
  obtain ⟨_, s1, h1, h2⟩ := run_bind.1 h
  have hq1 : Quiet s s s1 := still_run still_hashEraseDentry h1
  obtain ⟨_, s2, h3, h4⟩ := run_bind.1 h2
  obtain ⟨D', s3, h5, h6⟩ := run_bind.1 h3
  obtain ⟨hD', rfl⟩ := (run_dentryAt).1 h5
  rw [hq1.dentries, hD] at hD'
  cases hD'
  rw [if_pos hle] at h6
  cases h6
  have hq2 : Quiet (s1.freed d) (s1.freed d) s' := quiet_run (fun _ _ => quiet_refDown) h4
  exact hq1.freed.trans hq2

theorem run_vfsUnlink {ok : Bool} (hfresh : Fresh s) (h : vfsUnlink p path s = .ok (ok, s')) :
    Looks s s.next s' ∨ ∃ s1 d D, Looks s s.next s1 ∧ s1.dentries d = some D ∧ D.d_ref ≤ 0 ∧
      Quiet (s1.freed d) (s1.freed d) s' := by
  obtain ⟨start, s1, h1, h2⟩ := run_bind.1 h
  obtain ⟨l, s2, h3, h4⟩ := run_bind.1 h2
  have hlooks := (looks_lookupFinalDentry _ _ _ (looks_run looks_getPathStartDentry hfresh h1) h3).1
  cases hl : l.dentry with
  | none =>
    rw [hl] at h4
    cases h4
    exact .inl hlooks
  | some d =>
    rw [hl] at h4
    obtain ⟨-, -, V, -, -, -, h8⟩ := run_inodeOf_bind h4
    by_cases htype : V.type ≠ FILE_I
    · grind
    rw [if_neg htype] at h8
    obtain ⟨D, s5, h9, h10⟩ := run_bind.1 h8
    obtain ⟨hD, rfl⟩ := (run_dentryAt).1 h9
    by_cases hpos : 0 < D.d_ref
    · grind
    rw [if_neg hpos] at h10
    obtain ⟨v', s6, h11, h12⟩ := run_bind.1 h10
    obtain ⟨w, s7, h13, h14⟩ := run_bind.1 h12
    obtain ⟨D', s8, h15, h16⟩ := run_bind.1 h14
    obtain ⟨ok', s9, h17, h18⟩ := run_bind.1 h16
    have hq : Quiet s2 s2 s9 :=
      (((still_run still_inodeOf h11).trans (still_run still_parentInode h13)).trans
        (still_run still_dentryAt h15)).trans
        (quiet_run (fun _ _ => quiet_rfsUnlink) h17)
    have hkin := hlooks.kin
    have hlooks9 := hlooks.quiet ⟨fun v V hV => (hq.vinodes v V hV).trans hkin, hkin.next, hq.next, hq.dentries,
      hq.pfiles, hq.root⟩
    cases ok' with
    | false =>
      cases h18
      exact .inl hlooks9
    | true =>
      simp only [if_true] at h18
      obtain ⟨_, s10, h19, h20⟩ := run_bind.1 h18
      have hD9 : s9.dentries d = some D := hq.dentries ▸ hD
      have hq10 := run_dropDentry hD9 (not_lt.1 hpos) h19
      refine .inr ⟨s9, d, D, hlooks9, hD9, not_lt.1 hpos,
        hq10.trans (quiet_run (Q := fun _ => True) (fun _ _ => ?_) h20)⟩
      refine still_vinodeAt.quiet.bind fun V _ => ?_
      grind [quiet_dropVinode]

theorem ran_unlink {ok : Bool} (hfresh : Fresh s) (h : vfsUnlink p path s = .ok (ok, s')) : Ran moving s s' := by
  obtain hlooks | ⟨s1, d, D, hlooks, hD, hle, hq⟩ := run_vfsUnlink hfresh h
  · exact hlooks.ran hfresh
  · have hstep : Openers.step (opens s1) (.unlink (some (d, FILE_I)) true) = .ok (opens s') := by
      rw [opens_quiet hq, St.freed, opens_setDentry]
      exact Openers.step_unlink (by rw [opens_d_ref, hD]; rfl) hle
    exact (hlooks.ran hfresh).step (.unlink (some (d, FILE_I)) true) (.inl trivial) ⟨trivial,
      trivial⟩ hstep (Fresh.quiet (Fresh.setDentry hlooks.fresh hD) hq)
      (Kin.quiet (s := s1.freed d) hlooks.kin.freeDentry hq)

def St.unopened (s : St) (d : ℕ) (D : Dentry) : St :=
  { s with dentries := update s.dentries d (some { D with d_ref := D.d_ref - 1 }) }

theorem run_vfsClose {ok : Bool} (h : vfsClose file s = .ok (ok, s')) :
    ok = false ∧ Quiet s s s' ∨ ok = true ∧ ∃ D, s.dentries file.f_dentry = some D ∧
      (D.d_ref - 1 ≠ 0 ∧ Quiet (s.unopened file.f_dentry D) (s.unopened file.f_dentry D) s' ∨
        D.d_ref - 1 = 0 ∧ Quiet (s.freed file.f_dentry) (s.freed file.f_dentry) s') := by
  obtain ⟨-, -, V, -, -, -, h4⟩ := run_inodeOf_bind h
  by_cases htype : V.type ≠ FILE_I
  · rw [if_pos htype] at h4
    cases h4
    exact .inl ⟨rfl, quiet_self s⟩
  rw [if_neg htype] at h4
  obtain ⟨v', s3, h5, h6⟩ := run_bind.1 h4
  have hq3 := still_run still_rfsInodeOf h5
  obtain ⟨D, s4, h7, h8⟩ := run_bind.1 h6
  obtain ⟨hD, rfl⟩ := (run_dentryAt).1 h7
  obtain ⟨_, _, ⟨⟩, h10⟩ := run_bind.1 h8
  have hq5 : Quiet (s.unopened file.f_dentry D) (s.unopened file.f_dentry D) (s3.unopened file.f_dentry D) :=
    ⟨hq3.vinodes, le_rfl, hq3.next, by rw [St.unopened, St.unopened, hq3.dentries], hq3.pfiles, hq3.root⟩
  rw [hq3.dentries] at hD
  by_cases hlast : D.d_ref - 1 = 0
  · rw [if_pos hlast] at h10
    obtain ⟨_, s6, h11, h12⟩ := run_bind.1 h10
    have hdrop :=
      run_dropDentry (s := s3.unopened file.f_dentry D) (D := { D with d_ref := D.d_ref - 1 }) (update_self _ _ _)
      hlast.le h11
    have hfreed : (s3.unopened file.f_dentry D).freed file.f_dentry = s3.freed file.f_dentry := by
      simp only [St.freed, St.unopened, update_idem]
    rw [hfreed] at hdrop
    have htail : Yields (Quiet s6 s6) (do
        if (← vinodeAt v').ref = 0 then
          rfsWriteBackVinode v'
          dropVinode v'
        return true) (· = true) := by
      grind [quiet_dropVinode]
    obtain ⟨hq7, hok⟩ := htail _ _ _ (quiet_self s6) h12
    exact .inr ⟨hok, D, hD, .inr ⟨hlast, (hq3.freed.trans hdrop).trans hq7⟩⟩
  · rw [if_neg hlast] at h10
    cases h10
    exact .inr ⟨rfl, D, hD, .inl ⟨hlast, hq5⟩⟩

/-- only FD_OPENED descriptors are closed -/
def ClosesOpened (s : St) (l : ℕ × Call) : Prop :=
  ∀ fd, l.2 = .close fd → Openers.isOpened (s.pfiles l.1) (fileEntry fd) = true

theorem ran_close (hfresh : Fresh s) (hc : Openers.isOpened (s.pfiles p) (fileEntry fd) = true)
    (h : doClose p fd s = .ok (r, s')) : Ran moving s s' := by
  obtain ⟨file, s1, h1, h2⟩ := run_bind.1 h
  obtain ⟨hfile, rfl⟩ := run_getOpenedFile h1
  obtain ⟨ok, s2, h3, h4⟩ := run_bind.1 h2
  obtain ⟨rfl, hq⟩ | ⟨rfl, D, hD, hcases⟩ := run_vfsClose h3
  · cases h4
    exact (hfresh.looks.ran hfresh).quiet hq
  · simp only [if_true] at h4
    obtain ⟨_, s3, h5, h6⟩ := run_bind.1 h4
    cases h6
    obtain rfl := run_putOpenedFile h5
    -- what the two cases have in common
    have hkey : opens s2 =
        { opens s with
          d_ref := update (opens s).d_ref file.f_dentry (if D.d_ref - 1 = 0 then none else some (D.d_ref - 1)) } ∧
        Fresh s2 ∧ Kin s s2 := by
      rcases hcases with ⟨hmore, hq⟩ | ⟨hlast, hq⟩
      · rw [if_neg hmore, opens_quiet hq, St.unopened, opens_setDentry]
        exact ⟨rfl, Fresh.quiet (Fresh.setDentry hfresh hD) hq,
          Kin.quiet (s := s.unopened file.f_dentry D) (hfresh.looks.kin.setDentry hD rfl) hq⟩
      · rw [if_pos hlast, opens_quiet hq, St.freed, opens_setDentry]
        exact ⟨rfl, Fresh.quiet (Fresh.setDentry hfresh hD) hq,
          Kin.quiet (s := s.freed file.f_dentry) hfresh.looks.kin.freeDentry hq⟩
    obtain ⟨hopens, hfresh2, hkin⟩ := hkey
    refine (hfresh.looks.ran hfresh).step (.close p fd FILE_I) (.inl trivial) ⟨hc, trivial⟩ ?_ hfresh2 hkin.setPfiles
    rw [Openers.step_close rfl hfile (by rw [opens_d_ref, hD]; rfl)]
    grind [opens]

def Call.Moves : Call → Prop
  | .write _ _ => True
  | .lseek _ _ _ => True
  | _ => False

/-- **One call.** A file call is a run of lookups and one step of the machine of the opened files; objects of the kernel
stay what they are. -/
theorem act_opens {call : Call} (hfresh : Fresh s) (hc : ClosesOpened s (p, call)) (h : act p call s = .ok (r, s')) :
    Ran call.Moves s s' := by
  cases call with
  | «open» path flags => exact ran_open hfresh h
  | write fd buf => exact ran_write hfresh h
  | lseek fd offset whence => exact ran_lseek hfresh h
  | close fd => exact ran_close hfresh (hc fd rfl) h
  | mkdir path =>
    obtain ⟨ok, s1, h1, h2⟩ := run_bind.1 h
    cases h2
    exact (looks_run looks_vfsMkdir hfresh h1).ran hfresh
  | link oldpath newpath =>
    obtain ⟨ok, s1, h1, h2⟩ := run_bind.1 h
    cases h2
    exact (looks_run looks_vfsLink hfresh h1).ran hfresh
  | unlink path =>
    obtain ⟨ok, s1, h1, h2⟩ := run_bind.1 h
    cases h2
    exact ran_unlink hfresh h1
  | opendir path => exact ran_opendir hfresh h
  | ccwd path => exact ran_ccwd hfresh h

theorem boot_opens (h : Boot s) : Fresh s ∧ Openers.Start (opens s) := by
  have hboot := boot_spec h
  refine ⟨hboot.tidy.inv.tree.fresh, ?_, ?_⟩
  · intro d c hd
    obtain ⟨D, hD, rfl⟩ := Option.map_eq_some_iff.1 hd
    rcases (hboot.dentries d D).1 hD with ⟨-, rfl⟩ | ⟨-, rfl⟩ <;> rfl
  · intro p
    show s.pfiles p = ⟨s.vfs_root_dentry, fun _ => none, 0⟩
    rw [show s.vfs_root_dentry = 1 from hboot.root]
    exact hboot.pfiles p

/-- **Runs.** The counts of opened files in a run of file calls are those of a run of the machine of the opened files.
-/
theorem reach_opens (h : Reach step ClosesOpened Boot s) :
    Fresh s ∧ Reach Openers.step Openers.Orderly Openers.Start (opens s) := by
  refine h.inv (P := fun s => Fresh s ∧ Reach Openers.step Openers.Orderly Openers.Start (opens s)) ?_ ?_
  · intro s hs
    exact ⟨(boot_opens hs).1, .init (boot_opens hs).2⟩
  · intro s l s' ⟨hfresh, hreach⟩ hc hstep
    obtain ⟨r, hact⟩ := act_of_step hstep
    have hran := act_opens hfresh hc hact
    exact ⟨hran.fresh, (hran.run.mono fun _ _ h => h.1).trans hreach⟩

theorem opened_dentry {fd : ℕ} {file : File} (h : Openers.Good (opens s))
    (hfile : (s.pfiles p).opened_files fd = some file)
    (hopen : file.status = true) : ∃ De, s.dentries file.f_dentry = some De := by
  obtain ⟨n, hn, hcount⟩ := h.refs file.f_dentry
  have hholder : Openers.holder (opens s) (p, fd) = some file.f_dentry := by
    simp [Openers.holder, Openers.dentryOf, opens, hfile, hopen]
  have hpos := hcount.pos hholder
  rw [opens_d_ref] at hn
  cases hDe : s.dentries file.f_dentry with
  | none => grind
  | some De => exact ⟨De, rfl⟩

end RiscvPke.Fs
